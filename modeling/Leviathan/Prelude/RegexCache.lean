import Leviathan.Prelude.Encoding

/-!
# The cache of compiled patterns

`apiCachedProgram` keeps the programs of at most sixteen requests in a map, and their keys in the
order of their last use.  The key of a request is its pattern, the byte 1 and its flags.  A pattern
may hold the byte 1, so that the key tells two requests apart only when the flags of both are free
of it.  The flags of what was compiled are, since the compiler throws at any byte that is no flag;
but a hit does not ask the compiler.

After any requests the order has exactly the keys of the map, each once, and a request gets what a
fresh compilation gives, unless its flags hold the byte 1 and its key is that of another request
(`apiCachedProgram_transparent_iff`).
-/

namespace Leviathan.Prelude.Regex

open Net (wrap)

/-! ## Compiling -/

structure RegexException where
  message : Bytes
  offset : Int
  deriving DecidableEq

/-- The flags that the constructor of `RegexCoreCompiler` reads from the index `i` on, or the
message of its exception. -/
def readFlags (i flags : Nat) : Bytes → Except Bytes Nat
  | [] => .ok flags
  | c :: f =>
    if c = 105 then readFlags (i + 1) (flags ||| 1) f
    else if c = 109 then readFlags (i + 1) (flags ||| 2) f
    else if c = 115 then readFlags (i + 1) (flags ||| 4) f
    else .error (ascii "regex: unknown flag at offset " ++ ascii (toString i))

/-- The number that the digits in front write, in 64 bits. -/
def leadingNumber (val : Int) : Bytes → Int
  | [] => val
  | c :: s =>
    if c.toNat < 48 ∨ 57 < c.toNat then val else leadingNumber (wrap (val * 10 + (c.toNat - 48))) s

/-- `apiOffsetOf`. -/
def apiOffsetOf (msg : Bytes) : Int :=
  let marker := ascii "offset "
  let found := indexOf marker msg
  if found < 0 then -1
  else
    let rest := msg.drop (found.toNat + marker.length)
    let neg := rest.head? = some 45
    let digits := if neg then rest.tail else rest
    match digits.head? with
    | none => -1
    | some c =>
      if c.toNat < 48 ∨ 57 < c.toNat then -1
      else if neg then wrap (0 - leadingNumber 0 digits) else leadingNumber 0 digits

section

-- `RegexCoreCompiler.compile`, of a pattern and the flags that were read
variable (compile : Bytes → Nat → Except Bytes (List Int))

/-- `compileProgram`. -/
def compileProgram (pattern flags : Bytes) : Except Bytes (List Int) := do
  let read ← readFlags 0 0 flags
  compile pattern read

/-- `apiCompileOrThrow`. -/
def apiCompileOrThrow (pattern flags : Bytes) : Except RegexException (List Int) :=
  (compileProgram compile pattern flags).mapError fun message => ⟨message, apiOffsetOf message⟩

/-! ## The cache -/

/-- A map from keys to programs, as its entries in the order in which they came. -/
abbrev Programs := List (Bytes × List Int)

/-- `m[key] = prog`. -/
def Programs.set (m : Programs) (key : Bytes) (prog : List Int) : Programs :=
  if m.any fun e => e.1 = key then m.map fun e => if e.1 = key then (key, prog) else e
  else m ++ [(key, prog)]

/-- `apiWithoutKey`. -/
def apiWithoutKey (src : Programs) (key : Bytes) : Programs :=
  src.foldl (fun out e => if e.1 ≠ key then Programs.set out e.1 e.2 else out) []

structure Cache where
  apiCache : Programs := []
  apiCacheOrder : List Bytes := []
  deriving DecidableEq

/-- The key of a request. -/
def keyOf (pattern flags : Bytes) : Bytes := pattern ++ byteToString 1 ++ flags

/-- `apiCachedProgram`: the program or the exception, and the cache behind it. -/
def apiCachedProgram (c : Cache) (pattern flags : Bytes) :
    Except RegexException (List Int) × Cache :=
  let key := keyOf pattern flags
  match c.apiCache.find? fun e => e.1 = key with
  | some e =>
    let reordered := c.apiCacheOrder.foldl (fun r k => if k ≠ key then r ++ [k] else r) []
    (.ok e.2, { c with apiCacheOrder := reordered ++ [key] })
  | none =>
    match apiCompileOrThrow compile pattern flags with
    | .error e => (.error e, c)
    | .ok prog =>
      let m := c.apiCache.set key prog
      let order := c.apiCacheOrder ++ [key]
      if 16 < order.length then (.ok prog, ⟨apiWithoutKey m (order.headD []), order.tail⟩)
      else (.ok prog, ⟨m, order⟩)

/-- The cache after the requests. -/
def cacheAfter (requests : List (Bytes × Bytes)) : Cache :=
  requests.foldl (fun c r => (apiCachedProgram compile c r.1 r.2).2) {}

/-- The request gets what a fresh compilation gives, and leaves the cache alone if that fails. -/
def Transparent (c : Cache) (pattern flags : Bytes) : Prop :=
  (apiCachedProgram compile c pattern flags).1 = apiCompileOrThrow compile pattern flags ∧
    ∀ e, apiCompileOrThrow compile pattern flags = .error e →
      (apiCachedProgram compile c pattern flags).2 = c

/-- **The invariant.**  The order has the keys of the map, and every entry is the program of a
request with its key. -/
structure Cache.Inv (c : Cache) : Prop where
  nodup : c.apiCacheOrder.Nodup
  keys : c.apiCacheOrder.Perm (c.apiCache.map Prod.fst)
  bound : c.apiCacheOrder.length ≤ 16
  made : ∀ e ∈ c.apiCache, ∃ pattern flags, e.1 = keyOf pattern flags ∧
    apiCompileOrThrow compile pattern flags = .ok e.2

end

/-! ## Requests -/

variable {compile : Bytes → Nat → Except Bytes (List Int)} {c : Cache} {pattern flags key : Bytes}

/-- The flags of what is compiled are free of the byte 1. -/
theorem flags_of_compiled {prog : List Int} (h : apiCompileOrThrow compile pattern flags = .ok prog) :
    (1 : UInt8) ∉ flags := by
  have hread : ∀ (f : Bytes) (i n m : Nat), readFlags i n f = .ok m → (1 : UInt8) ∉ f := by
    intro f
    induction f with
    | nil => exact fun _ _ _ _ => List.not_mem_nil
    | cons c f ih =>
      intro i n m hm
      rw [readFlags] at hm
      split_ifs at hm with hi hm' hs
      · exact List.not_mem_cons_of_ne_of_not_mem (by rw [hi]; decide) (ih _ _ _ hm)
      · exact List.not_mem_cons_of_ne_of_not_mem (by rw [hm']; decide) (ih _ _ _ hm)
      · exact List.not_mem_cons_of_ne_of_not_mem (by rw [hs]; decide) (ih _ _ _ hm)
  unfold apiCompileOrThrow compileProgram at h
  cases hflags : readFlags 0 0 flags with
  | error e => rw [hflags] at h; cases h
  | ok n => exact hread flags 0 0 n hflags

/-- The key tells requests apart whose flags are free of the byte 1. -/
theorem keyOf_inj {pattern' flags' : Bytes} (hf : (1 : UInt8) ∉ flags) (hf' : (1 : UInt8) ∉ flags')
    (h : keyOf pattern flags = keyOf pattern' flags') : pattern = pattern' ∧ flags = flags' := by
  have hcut : ∀ {p f p' f' : Bytes}, (1 : UInt8) ∉ f → ∀ a, p' = p ++ a →
      1 :: f = a ++ 1 :: f' → p = p' ∧ f = f' := by
    rintro p f p' f' hf (_ | ⟨x, a⟩) rfl h
    · exact ⟨by simp, (List.cons.inj h).2⟩
    · exact absurd ((List.cons.inj h).2 ▸ by simp) hf
  simp only [keyOf, byteToString, List.append_assoc, List.singleton_append] at h
  rcases List.append_eq_append_iff.mp h with ⟨a, ha, h⟩ | ⟨a, ha, h⟩
  · exact hcut hf a ha h
  · exact (hcut hf' a ha h).imp Eq.symm Eq.symm

theorem foldl_add (p : Bytes → Prop) [DecidablePred p] (l : List Bytes) (r : List Bytes) :
    l.foldl (fun r k => if p k then r ++ [k] else r) r = r ++ l.filter p := by
  induction l generalizing r with
  | nil => simp
  | cons k l ih =>
    rw [List.foldl_cons, ih]
    by_cases hk : p k <;> simp [hk]

theorem Programs.set_new {m : Programs} (h : key ∉ m.map Prod.fst) (prog : List Int) :
    m.set key prog = m ++ [(key, prog)] := by
  refine if_neg fun hany => h ?_
  obtain ⟨e, he, hkey⟩ := List.any_eq_true.mp hany
  exact List.mem_map.mpr ⟨e, he, of_decide_eq_true hkey⟩

theorem apiWithoutKey_eq {src : Programs} (h : (src.map Prod.fst).Nodup) :
    apiWithoutKey src key = src.filter fun e => e.1 ≠ key := by
  have hfold : ∀ (src out : Programs), ((out ++ src).map Prod.fst).Nodup →
      src.foldl (fun out e => if e.1 ≠ key then Programs.set out e.1 e.2 else out) out =
        out ++ src.filter fun e => e.1 ≠ key := by
    intro src
    induction src with
    | nil => simp
    | cons e src ih =>
      intro out hnodup
      rw [List.foldl_cons]
      by_cases he : e.1 = key
      · rw [if_neg (not_not.mpr he), ih, List.filter_cons_of_neg (by simp [he])]
        exact hnodup.sublist (by simp)
      · have hnew : e.1 ∉ out.map Prod.fst := fun hmem => by
          rw [List.map_append, List.map_cons] at hnodup
          exact (List.nodup_append.mp hnodup).2.2 _ hmem _ List.mem_cons_self rfl
        rw [if_pos he, Programs.set_new hnew, ih, List.filter_cons_of_pos (by simp [he])]
        · simp
        · simpa using hnodup
  exact hfold src [] h

/-- What is found has the key. -/
theorem find_key {m : Programs} {e : Bytes × List Int}
    (h : (m.find? fun e => e.1 = key) = some e) : e ∈ m ∧ e.1 = key :=
  ⟨List.mem_of_find?_eq_some h, by simpa using List.find?_some h⟩

theorem not_mem_of_find_none {m : Programs} (h : (m.find? fun e => e.1 = key) = none) :
    key ∉ m.map Prod.fst := by
  intro hmem
  obtain ⟨e, he, hkey⟩ := List.mem_map.mp hmem
  exact List.find?_eq_none.mp h e he (decide_eq_true hkey)

/-- **A request keeps the invariant.** -/
theorem Cache.Inv.request (h : c.Inv compile) (pattern flags : Bytes) :
    (apiCachedProgram compile c pattern flags).2.Inv compile := by
  unfold apiCachedProgram
  dsimp only
  generalize hkey : keyOf pattern flags = key
  split
  · next e he =>
    -- a hit moves its key to the end
    obtain ⟨hmem, hfound⟩ := find_key he
    have hold : key ∈ c.apiCacheOrder := h.keys.mem_iff.mpr (List.mem_map.mpr ⟨e, hmem, hfound⟩)
    have hfilter : c.apiCacheOrder.filter (fun k => k ≠ key) = c.apiCacheOrder.erase key := by
      rw [h.nodup.erase_eq_filter]
      exact List.filter_congr fun k _ => by rw [bne, decide_not, beq_eq_decide]
    have hperm : (c.apiCacheOrder.erase key ++ [key]).Perm c.apiCacheOrder :=
      List.perm_append_comm.trans (List.perm_cons_erase hold).symm
    rw [foldl_add, List.nil_append, hfilter]
    exact ⟨hperm.nodup_iff.mpr h.nodup, hperm.trans h.keys, hperm.length_eq ▸ h.bound, h.made⟩
  · next hnone =>
    have hnew := not_mem_of_find_none hnone
    split
    · exact h
    · next prog hprog =>
      have hkeys : (c.apiCacheOrder ++ [key]).Perm ((c.apiCache ++ [(key, prog)]).map Prod.fst) := by
        rw [List.map_append]
        exact h.keys.append_right [key]
      have hnodup : (c.apiCacheOrder ++ [key]).Nodup := by
        refine List.nodup_append.mpr ⟨h.nodup, List.nodup_singleton key, ?_⟩
        rintro k hk _ hkey rfl
        exact hnew (h.keys.mem_iff.mp (List.mem_singleton.mp hkey ▸ hk))
      have hmade : ∀ e ∈ c.apiCache ++ [(key, prog)], ∃ pattern flags, e.1 = keyOf pattern flags ∧
          apiCompileOrThrow compile pattern flags = .ok e.2 := by
        refine List.forall_mem_append.mpr ⟨h.made, fun e he => ?_⟩
        rw [List.mem_singleton.mp he]
        exact ⟨pattern, flags, hkey.symm, hprog⟩
      rw [Programs.set_new hnew]
      split
      · next hfull =>
        -- the least recent key makes room
        obtain ⟨evict, rest, horder⟩ := List.exists_cons_of_ne_nil
          (List.append_ne_nil_of_right_ne_nil c.apiCacheOrder (List.cons_ne_nil key []))
        have hlen := congrArg List.length horder
        rw [horder] at hkeys hnodup ⊢
        rw [apiWithoutKey_eq (hkeys.nodup_iff.mp hnodup), List.headD_cons, List.tail_cons]
        obtain ⟨hevict, hrest⟩ := List.nodup_cons.mp hnodup
        refine ⟨hrest, ?_, ?_, fun e he => hmade e (List.mem_of_mem_filter he)⟩
        · have hleft := hkeys.filter fun k => k ≠ evict
          rw [List.filter_cons_of_neg (by simp), List.filter_eq_self.mpr fun k hk => ?_,
            List.filter_map] at hleft
          · exact hleft
          · exact decide_eq_true fun heq => hevict (heq ▸ hk)
        · have hbound := h.bound
          rw [List.length_append, List.length_singleton, List.length_cons] at hlen
          exact Nat.le_of_succ_le_succ (by omega : rest.length + 1 ≤ 16 + 1)
      · next hroom => exact ⟨hnodup, hkeys, Nat.le_of_not_lt hroom, hmade⟩

/-- When a request gets what it asks for. -/
theorem Cache.Inv.transparent_iff (h : c.Inv compile) : Transparent compile c pattern flags ↔
    ((1 : UInt8) ∈ flags → keyOf pattern flags ∉ c.apiCacheOrder) := by
  unfold Transparent apiCachedProgram
  dsimp only
  split
  · next e he =>
    obtain ⟨hmem, hkey⟩ := find_key he
    obtain ⟨pattern', flags', hkey', hprog⟩ := h.made e hmem
    constructor
    · rintro ⟨hok, -⟩ hone
      exact absurd hone (flags_of_compiled hok.symm)
    · intro hfree
      have hone : (1 : UInt8) ∉ flags := fun hone =>
        hfree hone (h.keys.mem_iff.mpr (List.mem_map.mpr ⟨e, hmem, hkey⟩))
      obtain ⟨rfl, rfl⟩ := keyOf_inj hone (flags_of_compiled hprog) (hkey.symm.trans hkey')
      exact ⟨hprog.symm, fun e' herr => by rw [hprog] at herr; cases herr⟩
  · next hnone =>
    refine ⟨fun _ _ hmem => not_mem_of_find_none hnone (h.keys.mem_iff.mp hmem), fun _ => ?_⟩
    cases hcompile : apiCompileOrThrow compile pattern flags with
    | error e => exact ⟨rfl, fun _ _ => rfl⟩
    | ok prog =>
      dsimp only
      split
      · exact ⟨rfl, nofun⟩
      · exact ⟨rfl, nofun⟩

/-- **The cache of patterns.**  After any requests, whatever the compiler, the order has the keys of
the map, each once, and at most sixteen; and a request gets what a fresh compilation gives exactly
if its flags are free of the byte 1 or its key is not there. -/
theorem apiCachedProgram_transparent_iff (compile : Bytes → Nat → Except Bytes (List Int))
    (requests : List (Bytes × Bytes)) (pattern flags : Bytes) :
    let c := cacheAfter compile requests
    c.apiCacheOrder.Nodup ∧ c.apiCacheOrder.Perm (c.apiCache.map Prod.fst) ∧
      c.apiCacheOrder.length ≤ 16 ∧
      (Transparent compile c pattern flags ↔
        ((1 : UInt8) ∈ flags → keyOf pattern flags ∉ c.apiCacheOrder)) := by
  have hinv : (cacheAfter compile requests).Inv compile := by
    induction requests using List.reverseRecOn with
    | nil => exact ⟨List.nodup_nil, .nil, Nat.zero_le 16, nofun⟩
    | append_singleton requests r ih =>
      rw [cacheAfter, List.foldl_append]
      exact ih.request r.1 r.2
  exact ⟨hinv.nodup, hinv.keys, hinv.bound, hinv.transparent_iff⟩

/-- After the pattern `a`, the byte 1, `i` without flags, the pattern `a` with the flags of the byte
1 and `i` finds its program. -/
theorem not_apiCachedProgram_transparent : ¬ ∀ (compile : Bytes → Nat → Except Bytes (List Int))
    (requests : List (Bytes × Bytes)) (pattern flags : Bytes),
    Transparent compile (cacheAfter compile requests) pattern flags := by
  intro h
  exact absurd (h (fun _ _ => .ok []) [([97, 1, 105], [])] [97] [105, 1]).1 (by decide)

end Leviathan.Prelude.Regex
