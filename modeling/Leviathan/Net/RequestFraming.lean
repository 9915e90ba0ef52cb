import Leviathan.Net.HttpMessages

/-!
# Where a request ends

`requestOf` cuts the first request out of all the bytes of a stream: the head up to the first blank
line, and as many bytes behind it as the first Content-Length writes.  `HttpRequest.feed` gets the
stream in fragments.  However it is cut, the incremental parser is complete with the fragment that
completes this request, and has what `parse` reads from its bytes, as long as the number that is
written fits in an `int`.  Of a greater one it takes the low 64 bits (`feed_framed_iff`).
-/

namespace Leviathan.Net

open List

variable {p s : Str} {i : Nat}

theorem indexOf_singleton {c : Char} (h : c ∉ p) (s : Str) :
    indexOf [c] (p ++ c :: s) = some p.length := by
  induction p with
  | nil => simp [indexOf]
  | cons d p ih => simp_all [indexOf]

theorem indexOf_le (h : indexOf p s = some i) : i + p.length ≤ s.length := by
  induction s generalizing i with
  | nil =>
    obtain ⟨rfl, rfl⟩ : p = [] ∧ 0 = i := by simpa [indexOf] using h
    exact Nat.le_refl 0
  | cons c s ih =>
    rw [indexOf] at h
    split at h
    · next hpre =>
      obtain rfl := Option.some.inj h
      simpa using (List.isPrefixOf_iff_prefix.mp hpre).length_le
    · obtain ⟨m, hm, rfl⟩ := Option.map_eq_some_iff.mp h
      have hle := ih hm
      rw [length_cons]
      omega

/-- What stands behind an occurrence does not matter to it. -/
theorem indexOf_take_append (h : indexOf p s = some i) (t : Str) :
    indexOf p (s.take (i + p.length) ++ t) = some i := by
  induction s generalizing i with
  | nil =>
    rw [indexOf] at h
    split at h
    · next hnil =>
      obtain rfl := Option.some.inj h
      cases t <;> simp [hnil, indexOf]
    · cases h
  | cons c s ih =>
    rw [indexOf] at h
    split at h
    · next hpre =>
      obtain ⟨u, hu⟩ := List.isPrefixOf_iff_prefix.mp hpre
      obtain rfl := Option.some.inj h
      rw [← hu, Nat.zero_add, take_left]
      cases p <;> cases t <;> simp [indexOf, isPrefixOf_iff_prefix]
    · next hpre =>
      obtain ⟨m, hm, rfl⟩ := Option.map_eq_some_iff.mp h
      have hle := indexOf_le hm
      rw [Nat.add_right_comm, take_succ_cons, cons_append, indexOf, ih hm, if_neg]
      · rfl
      · intro hpre'
        refine hpre (List.isPrefixOf_iff_prefix.mpr ?_)
        have htake : c :: s.take (m + p.length) <+: c :: (s.take (m + p.length) ++ t) :=
          prefix_append _ t
        refine (prefix_of_prefix_length_le (List.isPrefixOf_iff_prefix.mp hpre') htake ?_).trans ?_
        · simp only [length_cons, length_take]
          omega
        · exact (prefix_cons_inj c).mpr ( take_prefix _ s)

namespace HttpRequest

/-! ## The request of a stream -/

def blankLine : Str := crlf ++ crlf

/-- The number that the first Content-Length writes, if it is there and all digits. -/
def writtenLength (headers : List Header) : Nat :=
  let cl := firstOr headers "Content-Length".toList []
  if cl.all fun c => 48 ≤ c.toNat && c.toNat ≤ 57 then
    cl.foldl (fun v c => v * 10 + (c.toNat - 48)) 0
  else 0

/-- The number that the head of the stream writes. -/
def lengthOf (s : Str) (he : Nat) : Nat := writtenLength (({} : HttpRequest).parseHead (s.take he)).headers

/-- The request that the stream begins with, once all of it is there. -/
def requestOf (s : Str) : Option HttpRequest := do
  let he ← indexOf blankLine s
  if he + 4 + lengthOf s he ≤ s.length then
    some (({} : HttpRequest).parse (s.take (he + 4 + lengthOf s he)))
  else none

/-- The parser after the fragments. -/
def feedAll (frags : List Str) : HttpRequest := frags.foldl (fun r chunk => (r.feed chunk).2) {}

/-- Two parsers have read the same request. -/
structure Same (r q : HttpRequest) : Prop where
  method : r.method = q.method
  path : r.path = q.path
  version : r.version = q.version
  headers : r.headers = q.headers
  body : r.body = q.body

/-- The parser is complete exactly when the request is there, and has read it. -/
def Framed (frags : List Str) : Prop :=
  (feedAll frags).complete = (requestOf frags.flatten).isSome ∧
    ∀ q, requestOf frags.flatten = some q → Same (feedAll frags) q

/-- The number that is written fits in an `int`, or not even as many bytes are there as its low
64 bits say. -/
def Fits (s : Str) : Prop :=
  ∀ he, indexOf blankLine s = some he →
    lengthOf s he < 2 ^ 63 ∨ s.length < he + 4 + (wrap (lengthOf s he)).toNat

/-! ## The number of bytes -/

/-- What `feed` takes for the number. -/
theorem bodyLenOf_eq (headers : List Header) :
    (if 0 < bodyLenOf headers then bodyLenOf headers else 0) =
      ((wrap (writtenLength headers)).toNat : Int) := by
  have hdecimal : ∀ (cl : Str) (v : Nat),
      decimalOf (wrap v) cl = if cl.all fun c => 48 ≤ c.toNat && c.toNat ≤ 57 then
        wrap (cl.foldl (fun v c => v * 10 + (c.toNat - 48)) v : Nat) else -1 := by
    intro cl
    induction cl with
    | nil => simp [decimalOf]
    | cons c cl ih =>
      intro v
      rw [decimalOf, all_cons, foldl_cons]
      by_cases hc : c.toNat < 48 ∨ 57 < c.toNat
      · rw [if_pos hc, if_neg]
        simp only [Bool.and_eq_true, decide_eq_true_eq, not_and_or]
        omega
      · have hstep : wrap (wrap v * 10 + (c.toNat - 48)) = wrap (v * 10 + (c.toNat - 48) : Nat) := by
          have hcast : ((v * 10 + (c.toNat - 48) : Nat) : Int) = v * 10 + (c.toNat - 48) := by omega
          rw [hcast, wrap, wrap, wrap, ← Int.bmod_add_bmod, Int.bmod_mul_bmod, Int.bmod_add_bmod]
        have hdigit : (decide (48 ≤ c.toNat) && decide (c.toNat ≤ 57)) = true := by
          simp only [Bool.and_eq_true, decide_eq_true_eq]
          omega
        rw [if_neg hc, hstep, ih, hdigit, Bool.true_and]
  unfold bodyLenOf writtenLength
  generalize firstOr headers "Content-Length".toList [] = cl
  by_cases hcl : cl.length = 0
  · rw [List.length_eq_zero_iff.mp hcl]
    rfl
  · have hnumber := hdecimal cl 0
    simp only [hcl, if_false, show decimalOf 0 cl = _ from hnumber]
    split_ifs <;> first | omega | rfl

/-! ## Runs -/

/-- Where the parser stands after the bytes of `s`. -/
def Stands (s : Str) (r : HttpRequest) : Prop :=
  (indexOf blankLine s = none ∧ r = { acc := s }) ∨
    ∃ he n, indexOf blankLine s = some he ∧ n = (wrap (lengthOf s he)).toNat ∧
      let q := ({} : HttpRequest).parseHead (s.take he)
      if he + 4 + n ≤ s.length then
        r.complete = true ∧ Same r { q with body := (s.drop (he + 4)).take n }
      else r = { q with acc := s.drop (he + 4), headersDone := true, bodyNeeded := n }

/-- More bytes do not move the blank line. -/
theorem blankLine_append {he : Nat} (h : indexOf blankLine s = some he) (chunk : Str) :
    he + 4 ≤ s.length ∧ indexOf blankLine (s ++ chunk) = some he ∧
      (s ++ chunk).take he = s.take he ∧ (s ++ chunk).drop (he + 4) = s.drop (he + 4) ++ chunk := by
  have hle : he + 4 ≤ s.length := indexOf_le h
  refine ⟨hle, ?_, take_append_of_le_length (by omega), drop_append_of_le_length hle⟩
  have hnext := indexOf_take_append h (s.drop (he + 4) ++ chunk)
  rwa [show he + blankLine.length = he + 4 from rfl, ← append_assoc,
    take_append_drop] at hnext

/-- The bytes behind the blank line are enough, or the parser waits. -/
theorem stands_feedBody {he n : Nat} {r : HttpRequest} (h : indexOf blankLine s = some he)
    (hn : n = (wrap (lengthOf s he)).toNat)
    (hr : r = { ({} : HttpRequest).parseHead (s.take he) with
      acc := s.drop (he + 4), headersDone := true, bodyNeeded := n }) : Stands s r.feedBody.2 := by
  have hle : he + 4 ≤ s.length := indexOf_le h
  refine Or.inr ⟨he, n, h, hn, ?_⟩
  subst hr
  dsimp only [feedBody]
  by_cases henough : he + 4 + n ≤ s.length
  · rw [if_pos henough, if_pos (by rw [length_drop]; omega)]
    exact ⟨rfl, rfl, rfl, rfl, rfl, by simp⟩
  · rw [if_neg henough, if_neg (by rw [length_drop]; omega)]

/-- **A fragment** takes the parser to where it stands after its bytes. -/
theorem stands_feed {chunk : Str} {r : HttpRequest} (h : Stands s r) :
    Stands (s ++ chunk) (r.feed chunk).2 := by
  obtain ⟨hnone, rfl⟩ | ⟨he, n, hsome, hn, hr⟩ := h
  · -- the blank line may come with this fragment
    rw [feed, if_neg Bool.false_ne_true]
    dsimp only
    rw [if_neg Bool.false_ne_true]
    split
    · next hnone => exact Or.inl ⟨hnone, rfl⟩
    · next he hsome =>
      refine stands_feedBody hsome rfl ?_
      rw [bodyLenOf_eq]
      rfl
  · obtain ⟨hle, hsome', htake, hdrop⟩ := blankLine_append hsome chunk
    have hn' : n = (wrap (lengthOf (s ++ chunk) he)).toNat := by rw [lengthOf, htake]; exact hn
    dsimp only at hr
    split at hr
    · next henough =>
      obtain ⟨hcomplete, hsame⟩ := hr
      refine Or.inr ⟨he, n, hsome', hn', ?_⟩
      rw [feed, if_pos hcomplete, if_pos (by rw [length_append]; omega), htake, hdrop,
        take_append_of_le_length (by rw [length_drop]; omega)]
      exact ⟨hcomplete, hsame⟩
    · subst hr
      rw [feed, if_neg (by exact Bool.false_ne_true)]
      dsimp only
      rw [if_pos rfl]
      refine stands_feedBody hsome' hn' ?_
      rw [htake, hdrop]

theorem stands_feedAll (frags : List Str) : Stands frags.flatten (feedAll frags) := by
  induction frags using List.reverseRecOn with
  | nil => exact Or.inl ⟨rfl, rfl⟩
  | append_singleton frags chunk ih =>
    rw [flatten_append, flatten_singleton, feedAll, foldl_append]
    exact stands_feed ih

/-- What `parse` reads from the bytes of a request. -/
theorem parse_take {he : Nat} (h : indexOf blankLine s = some he) (k : Nat) :
    ({} : HttpRequest).parse (s.take (he + 4 + k)) =
      { ({} : HttpRequest).parseHead (s.take he) with body := (s.drop (he + 4)).take k } := by
  have hsplit : s.take (he + 4 + k) = s.take (he + 4) ++ (s.drop (he + 4)).take k := take_add
  have hat : indexOf (crlf ++ crlf) (s.take (he + 4 + k)) = some he := by
    rw [hsplit]
    exact indexOf_take_append h _
  rw [parse, hat]
  dsimp only
  rw [take_take, Nat.min_eq_left (by omega), drop_take, Nat.add_sub_cancel_left]

theorem framed_iff {frags : List Str} (h : Stands frags.flatten (feedAll frags)) :
    Framed frags ↔ Fits frags.flatten := by
  unfold Framed Fits requestOf
  obtain ⟨hnone, hr⟩ | ⟨he, n, hsome, hn, hr⟩ := h
  · rw [hnone, hr]
    simp
  · have hnumber : n ≤ lengthOf frags.flatten he ∧ n < 2 ^ 63 ∧
        (lengthOf frags.flatten he < 2 ^ 63 → n = lengthOf frags.flatten he) := by
      rw [hn, wrap, Int.bmod_def]
      split <;> omega
    obtain ⟨hle, hlt, hsmall⟩ := hnumber
    dsimp only at hr
    simp only [hsome, Option.bind_eq_bind, Option.bind_some, Option.some.injEq, forall_eq', ← hn]
    by_cases hall : he + 4 + lengthOf frags.flatten he ≤ frags.flatten.length
    · -- the request is there
      rw [if_pos (by omega)] at hr
      obtain ⟨hcomplete, hsame⟩ := hr
      rw [if_pos hall, hcomplete, parse_take hsome]
      constructor
      · rintro ⟨-, hparsed⟩
        have hbody := congrArg List.length (hsame.body.symm.trans (hparsed _ rfl).body)
        dsimp only at hbody
        rw [length_take, length_take, length_drop] at hbody
        omega
      · intro hfits
        rw [← hsmall (by omega)]
        refine ⟨rfl, fun q hq => ?_⟩
        cases hq
        exact hsame
    · rw [if_neg hall]
      by_cases henough : he + 4 + n ≤ frags.flatten.length
      · -- the low bits cut it short
        rw [if_pos henough] at hr
        rw [hr.1]
        exact ⟨fun h => absurd h.1 (by decide), fun hfits => by omega⟩
      · rw [if_neg henough] at hr
        rw [hr]
        exact ⟨fun _ => Or.inr (by omega), fun _ => ⟨rfl, nofun⟩⟩

/-- **A request is framed by its bytes, not by the packets**, exactly if the number that it writes
fits in an `int` or its bytes are not there yet; `feed` says whether the request is complete; and
behind its end nothing changes any more. -/
theorem feed_framed_iff (frags : List Str) :
    (Framed frags ↔ Fits frags.flatten) ∧
    (∀ chunk, ((feedAll frags).feed chunk).1 = (feedAll (frags ++ [chunk])).complete) ∧
    ((feedAll frags).complete = true → ∀ more, feedAll (frags ++ more) = feedAll frags) := by
  refine ⟨?_, fun chunk => ?_, fun hcomplete more => ?_⟩
  · exact framed_iff (stands_feedAll frags)
  · rw [feedAll, feedAll, foldl_append]
    exact (feed_complete _ chunk).symm
  · rw [feedAll, foldl_append, ← feedAll]
    induction more with
    | nil => rfl
    | cons chunk more ih =>
      rw [foldl_cons, feed, if_pos hcomplete]
      exact ih

/-- A number that does not fit. -/
theorem not_feed_framed : ¬ ∀ frags : List Str, Framed frags := by
  intro h
  exact absurd (h ["\r\nContent-Length: 18446744073709551617\r\n\r\na".toList]).1
    (by decide +kernel)

/-- **The cuts do not matter**, whatever number the stream writes: after its fragments the parser is
complete if it is after all of it at once, and has read the same request; if not, it is the same. -/
theorem feedAll_uncut (frags : List Str) :
    let r := feedAll frags
    let q := feedAll [frags.flatten]
    r.complete = q.complete ∧ Same r q ∧ (r.complete = false → r = q) := by
  have hr := stands_feedAll frags
  have hq := stands_feedAll [frags.flatten]
  rw [flatten_singleton] at hq
  dsimp only
  obtain ⟨hnone, hr⟩ | ⟨he, n, hsome, hn, hr⟩ := hr <;>
    obtain ⟨hnone', hq⟩ | ⟨he', n', hsome', hn', hq⟩ := hq
  · grind [Same]
  · cases hnone.symm.trans hsome'
  · cases hnone'.symm.trans hsome
  · cases hsome.symm.trans hsome'
    cases hn.trans hn'.symm
    grind [Same]

end HttpRequest

end Leviathan.Net
