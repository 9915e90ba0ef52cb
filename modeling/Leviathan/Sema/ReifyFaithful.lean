import Leviathan.Sema.ReifyMeaning

/-!
# When the tree and the closure agree

`Mirrors` says what the reifier makes of a body: a tree of its shape, where a captured
expression is a `Bind` whose slot is keyed by the path of the expression.  The path of an
optional chain, of a weak read and of a chain that starts at a call or an index is empty,
and so all such captures of a lambda get one slot between them.

The lambda is faithful exactly if that does no harm (`reify_faithful_iff`): the captures
without a path are all the same expression, and no capture reads a parameter of the lambda,
which is not in scope where the binds array is filled.
-/

variable {e c : Ex} {n : Node} {binds' : List BindEntry} {b : Bool} {k : Nat}

namespace Leviathan.Sema.Reify

open List

section Shapes

variable (ty : Ex → Ty) (params : List Ident)

/-- An expression that is reified to a `Bind` by itself. -/
def IsCapture (e : Ex) : Prop :=
  (ty e).isDbValue = true ∧
    ((∃ x weak, e = .name x weak ∧ x.text ≠ "None" ∧ x ∉ params) ∨
      ∃ a x link weak, e = .member a x link weak ∧ e.anyColon = false ∧ paramRoot params a = none)

/-- `c` is captured in `e`, for its value or, with `storeNone`, as the receiver of an array
call. -/
inductive Captured : Ex → Ex → Bool → Prop
  | self {e : Ex} : IsCapture ty params e → Captured e e false
  | unary {op : Op} {a c : Ex} {b : Bool} : Captured a c b → Captured (.unary op a) c b
  | left {op : Op} {l r c : Ex} {b : Bool} : Captured l c b → Captured (.binary op l r) c b
  | right {op : Op} {l r c : Ex} {b : Bool} : Captured r c b → Captured (.binary op l r) c b
  | array {recv a : Ex} {name : Ident} {opt : Bool} : ty recv = .array →
      Captured (.method recv name opt [a]) recv true
  | recv {recv a c : Ex} {name : Ident} {opt b : Bool} : ty recv = .string → Captured recv c b →
      Captured (.method recv name opt [a]) c b
  | arg {recv a c : Ex} {name : Ident} {opt b : Bool} : Captured a c b →
      Captured (.method recv name opt [a]) c b

/-- The `Bind` of slot `k` in a tree stands for the expression `c` of the body. -/
inductive Stands : Node → Ex → Nat → Ex → Bool → Prop
  | self {e : Ex} {k : Nat} : IsCapture ty params e → Stands (.bind k) e k e false
  | unary {op : Op} {s : String} {n : Node} {a c : Ex} {k : Nat} {b : Bool} :
      Stands n a k c b → Stands (.un s n) (.unary op a) k c b
  | left {op : Op} {s : String} {n m : Node} {l r c : Ex} {k : Nat} {b : Bool} :
      Stands n l k c b → Stands (.bin s n m) (.binary op l r) k c b
  | right {op : Op} {s : String} {n m : Node} {l r c : Ex} {k : Nat} {b : Bool} :
      Stands m r k c b → Stands (.bin s n m) (.binary op l r) k c b
  | array {s : String} {m : Node} {recv a : Ex} {name : Ident} {k : Nat} {opt : Bool} :
      ty recv = .array → Stands (.call s (.bind k) [m]) (.method recv name opt [a]) k recv true
  | recv {s : String} {n m : Node} {recv a c : Ex} {name : Ident} {k : Nat} {opt b : Bool} :
      ty recv = .string → Stands n recv k c b →
      Stands (.call s n [m]) (.method recv name opt [a]) k c b
  | arg {s : String} {n m : Node} {recv a c : Ex} {name : Ident} {k : Nat} {opt b : Bool} :
      Stands m a k c b → Stands (.call s n [m]) (.method recv name opt [a]) k c b

/-- The tree has the shape of the body, and its slots are keyed by paths. -/
inductive Mirrors (binds : List BindEntry) : Node → Ex → Prop
  | lit (v : Literal) : Mirrors binds (.lit v) (.lit v)
  | none {x : Ident} {weak : Bool} : x.text = "None" → Mirrors binds (.lit .none) (.name x weak)
  | enum {a : Ex} {x : Ident} {n : Int} {weak : Bool} :
      Mirrors binds (.lit (.int n)) (.member a x (.colon (some n)) weak)
  | field {a : Ex} {x root : Ident} {link : Link} {weak : Bool} :
      (Ex.member a x link weak).anyColon = false → paramRoot params a = some root →
      Mirrors binds (.field root (a.segs ++ [x])) (.member a x link weak)
  | bind {e : Ex} {k : Nat} {b : BindEntry} : IsCapture ty params e → binds[k]? = some b →
      b.key = pathOf e → Mirrors binds (.bind k) e
  | un {op : Op} {n : Node} {a : Ex} : op = .bang ∨ op = .minus → Mirrors binds n a →
      Mirrors binds (.un (reifyOp op) n) (.unary op a)
  | bin {op : Op} {n m : Node} {l r : Ex} : reifyBinaryOk op = true → Mirrors binds n l →
      Mirrors binds m r → Mirrors binds (.bin (reifyOp op) n m) (.binary op l r)
  | array {m : Node} {recv a : Ex} {name : Ident} {k : Nat} {b : BindEntry} {opt : Bool} :
      ty recv = .array → pathOf recv ≠ "" → binds[k]? = some b → b.key = pathOf recv →
      Mirrors binds m a → Mirrors binds (.call name.text (.bind k) [m]) (.method recv name opt [a])
  | call {n m : Node} {recv a : Ex} {name : Ident} {opt : Bool} :
      ty recv = .string → Mirrors binds n recv → Mirrors binds m a →
      Mirrors binds (.call name.text n [m]) (.method recv name opt [a])

end Shapes

variable {ty : Ex → Ty} {params : List Ident}

/-- A name, or a chain of members. -/
def Ex.isChain : Ex → Bool
  | .name _ _ => true
  | .member _ _ _ _ => true
  | _ => false

theorem IsCapture.isChain (h : IsCapture ty params e) : e.isChain = true := by
  rcases h.2 with ⟨_, _, rfl, _⟩ | ⟨_, _, _, _, rfl, _⟩
  · rfl
  · rfl

/-! ### The table of slots -/

/-- A table whose entries are captured expressions, each under its own path. -/
structure Table (captured : Ex → Bool → Prop) (binds : List BindEntry) : Prop where
  source : ∀ b ∈ binds, captured b.capture b.storeNone ∧ b.key = pathOf b.capture
  distinct : (binds.map BindEntry.key).Nodup

theorem findOrAddSlot_spec {captured : Ex → Bool → Prop} {binds : List BindEntry} {storeNone : Bool}
    (h : Table captured binds) (hc : captured c storeNone) :
    ∃ ext b, (findOrAddSlot (pathOf c) c storeNone binds).2 = binds ++ ext ∧
      Table captured (binds ++ ext) ∧
      (binds ++ ext)[(findOrAddSlot (pathOf c) c storeNone binds).1]? = some b ∧
      b.key = pathOf c := by
  unfold findOrAddSlot
  cases hfind : binds.findIdx? fun b => b.key = pathOf c with
  | some i =>
    obtain ⟨hi, hkey, _⟩ := List.findIdx?_eq_some_iff_getElem.mp hfind
    refine ⟨[], binds[i], ?_, ?_, ?_, of_decide_eq_true hkey⟩
    · rw [append_nil]
    · rw [append_nil]
      exact h
    · rw [append_nil]
      exact getElem?_eq_getElem hi
  | none =>
    refine ⟨[⟨pathOf c, c, storeNone⟩], ⟨pathOf c, c, storeNone⟩, rfl, ⟨?_, ?_⟩, ?_, rfl⟩
    · intro b hb
      rcases List.mem_append.mp hb with hb | hb
      · exact h.source b hb
      · obtain rfl := List.mem_singleton.mp hb
        exact ⟨hc, rfl⟩
    · rw [map_append, nodup_append]
      refine ⟨h.distinct, nodup_singleton _, ?_⟩
      intro key hkey key' hkey' heq
      obtain ⟨b, hb, rfl⟩ := List.mem_map.mp hkey
      have hnew := List.findIdx?_eq_none_iff.mp hfind b hb
      rw [List.mem_singleton.mp hkey'] at heq
      simp [heq] at hnew
    · exact getElem?_concat_length

theorem Mirrors.mono {binds ext : List BindEntry} (h : Mirrors ty params binds n e) :
    Mirrors ty params (binds ++ ext) n e := by
  have hget : ∀ {k : Nat} {b : BindEntry}, binds[k]? = some b → (binds ++ ext)[k]? = some b := by
    intro k b hb
    have hlt := (List.getElem?_eq_some_iff.mp hb).1
    rw [getElem?_append_left hlt]
    exact hb
  induction h with
  | lit v => exact .lit v
  | none h => exact .none h
  | enum => exact .enum
  | field h h' => exact .field h h'
  | bind h hb hkey => exact .bind h (hget hb) hkey
  | un h _ ih => exact .un h ih
  | bin h _ _ ih ih' => exact .bin h ih ih'
  | array h hne hb hkey _ ih => exact .array h hne (hget hb) hkey ih
  | call h _ _ ih ih' => exact .call h ih ih'

theorem findRow_spec {name : Ident} {arity : Nat} {t : Ty} {row : ExprCallRow}
    (h : findRow name arity t = some row) :
    arity = 1 ∧ (row.recv = .arrayT ∧ t = .array ∨ row.recv = .str ∧ t = .string) := by
  unfold findRow at h
  have hmem := mem_of_find?_eq_some h
  have hrow := find?_some h
  have harity : row.arity = 1 := by
    unfold kExprWhitelist at hmem
    simp only [mem_cons, not_mem_nil, or_false] at hmem
    rcases hmem with rfl | rfl | rfl | rfl | rfl | rfl <;> rfl
  simp only [Bool.and_eq_true, Bool.or_eq_true, decide_eq_true_eq] at hrow
  refine ⟨by rw [← hrow.1.2, harity], ?_⟩
  rcases hrow.2 with ⟨h1, h2⟩ | ⟨h1, h2⟩
  · exact .inr ⟨h1, h2⟩
  · exact .inl ⟨h1, h2⟩

theorem reifyCapture_spec {captured : Ex → Bool → Prop} {binds : List BindEntry}
    (hcap : (ty e).isDbValue = true → IsCapture ty params e)
    (hin : ∀ c b, Captured ty params e c b → captured c b) (htable : Table captured binds)
    (h : reifyCapture ty e binds = .ok (n, binds')) :
    ∃ ext, binds' = binds ++ ext ∧ Table captured binds' ∧ Mirrors ty params binds' n e := by
  unfold reifyCapture at h
  by_cases hdb : (ty e).isDbValue = true
  · rw [if_pos hdb] at h
    have hself := hcap hdb
    obtain ⟨ext, b, hbinds, htable', hget, hkey⟩ := findOrAddSlot_spec htable (hin e false (.self hself))
    have hpair : Except.ok (Node.bind (findOrAddSlot (pathOf e) e false binds).1,
        (findOrAddSlot (pathOf e) e false binds).2) = Except.ok (n, binds') := h
    obtain ⟨hn, hb⟩ := Prod.mk.inj (Except.ok.inj hpair)
    rw [← hn, ← hb, hbinds]
    exact ⟨ext, rfl, htable', .bind hself hget hkey⟩
  · rw [if_neg hdb] at h
    cases h

theorem reifyArrayReceiver_spec {captured : Ex → Bool → Prop} {binds : List BindEntry}
    (hc : captured e true) (htable : Table captured binds)
    (h : reifyArrayReceiver e binds = .ok (n, binds')) :
    ∃ ext k b, n = .bind k ∧ pathOf e ≠ "" ∧ binds' = binds ++ ext ∧ Table captured binds' ∧
      binds'[k]? = some b ∧ b.key = pathOf e := by
  unfold reifyArrayReceiver at h
  by_cases hempty : pathOf e = ""
  · rw [if_pos hempty] at h
    cases h
  · rw [if_neg hempty] at h
    obtain ⟨ext, b, hbinds, htable', hget, hkey⟩ := findOrAddSlot_spec htable hc
    have hpair : Except.ok (Node.bind (findOrAddSlot (pathOf e) e true binds).1,
        (findOrAddSlot (pathOf e) e true binds).2) = Except.ok (n, binds') := h
    obtain ⟨hn, hb⟩ := Prod.mk.inj (Except.ok.inj hpair)
    refine ⟨ext, _, b, hn.symm, hempty, ?_⟩
    rw [← hb, hbinds]
    exact ⟨rfl, htable', hget, hkey⟩

/-- The one argument of a whitelisted call. -/
theorem reifyArgs_singleton {name : String} {rn : Node} {a : Ex} {binds : List BindEntry}
    (h : (match reifyArgs ty params [a] binds with
      | .error r => .error r
      | .ok (argNodes, binds) => .ok (Node.call name rn argNodes, binds)) =
      (.ok (n, binds') : Except Reject (Node × List BindEntry))) :
    ∃ an binds2, reifyNode ty params a binds = .ok (an, binds2) ∧ n = .call name rn [an] ∧
      binds' = binds2 := by
  unfold reifyArgs at h
  cases ha : reifyNode ty params a binds with
  | error r =>
    rw [ha] at h
    cases h
  | ok p =>
    obtain ⟨an, binds2⟩ := p
    rw [ha] at h
    unfold reifyArgs at h
    cases h
    exact ⟨an, _, rfl, rfl, rfl⟩

/-- What the reifier makes of an expression mirrors it. -/
theorem reifyNode_spec {captured : Ex → Bool → Prop} : ∀ (e : Ex) (n : Node)
    (binds binds' : List BindEntry), (∀ c b, Captured ty params e c b → captured c b) →
    Table captured binds → reifyNode ty params e binds = .ok (n, binds') →
    ∃ ext, binds' = binds ++ ext ∧ Table captured binds' ∧ Mirrors ty params binds' n e
  | .lit v, n, binds, binds', _, htable, h => by
    cases h
    exact ⟨[], (append_nil _).symm, htable, .lit v⟩
  | .name x weak, n, binds, binds', hin, htable, h => by
    unfold reifyNode at h
    by_cases hnone : x.text = "None"
    · rw [if_pos hnone] at h
      cases h
      exact ⟨[], (append_nil _).symm, htable, .none hnone⟩
    · rw [if_neg hnone] at h
      by_cases hx : x ∈ params
      · rw [if_pos hx] at h
        cases h
      · rw [if_neg hx] at h
        exact reifyCapture_spec (fun hdb => ⟨hdb, .inl ⟨x, weak, rfl, hnone, hx⟩⟩) hin htable h
  | .this, n, binds, binds', _, _, h => by cases h
  | .member a x link weak, n, binds, binds', hin, htable, h => by
    unfold reifyNode at h
    by_cases hcolon : (Ex.member a x link weak).anyColon = true
    · rw [if_pos hcolon] at h
      cases link with
      | dot => cases h
      | optChain => cases h
      | colon carrier =>
        cases carrier with
        | none => cases h
        | some i =>
          cases h
          exact ⟨[], (append_nil _).symm, htable, .enum⟩
    · rw [if_neg hcolon] at h
      have hplain : (Ex.member a x link weak).anyColon = false := Bool.eq_false_iff.mpr hcolon
      cases hroot : paramRoot params a with
      | some root =>
        rw [hroot] at h
        cases h
        exact ⟨[], (append_nil _).symm, htable, .field hplain hroot⟩
      | none =>
        rw [hroot] at h
        exact reifyCapture_spec
          (fun hdb => ⟨hdb, .inr ⟨a, x, link, weak, rfl, hplain, hroot⟩⟩) hin htable h
  | .unary op a, n, binds, binds', hin, htable, h => by
    unfold reifyNode at h
    by_cases hop : op ≠ .bang ∧ op ≠ .minus
    · rw [if_pos hop] at h
      cases h
    · rw [if_neg hop] at h
      cases ha : reifyNode ty params a binds with
      | error r =>
        rw [ha] at h
        cases h
      | ok p =>
        obtain ⟨inner, binds1⟩ := p
        rw [ha] at h
        cases h
        obtain ⟨ext, hext, htable', hmirrors⟩ := reifyNode_spec a inner binds _
          (fun c b hc => hin c b (.unary hc)) htable ha
        exact ⟨ext, hext, htable', .un (by tauto) hmirrors⟩
  | .binary op l r, n, binds, binds', hin, htable, h => by
    unfold reifyNode at h
    by_cases heq : op = .eq ∨ op = .compound
    · rw [if_pos heq] at h
      cases h
    · rw [if_neg heq] at h
      by_cases hok : reifyBinaryOk op = true
      · rw [if_neg (by simp [hok])] at h
        cases hl : reifyNode ty params l binds with
        | error r =>
          rw [hl] at h
          cases h
        | ok p =>
          obtain ⟨ln, binds1⟩ := p
          rw [hl] at h
          dsimp only at h
          cases hr : reifyNode ty params r binds1 with
          | error r =>
            rw [hr] at h
            cases h
          | ok p =>
            obtain ⟨rn, binds2⟩ := p
            rw [hr] at h
            cases h
            obtain ⟨ext, hext, htable', hmirrors⟩ := reifyNode_spec l ln binds binds1
              (fun c b hc => hin c b (.left hc)) htable hl
            obtain ⟨ext', hext', htable'', hmirrors'⟩ := reifyNode_spec r rn binds1 _
              (fun c b hc => hin c b (.right hc)) htable' hr
            refine ⟨ext ++ ext', ?_, htable'', .bin hok ?_ hmirrors'⟩
            · rw [hext', hext, append_assoc]
            · rw [hext']
              exact hmirrors.mono
      · rw [if_pos (by simp [hok])] at h
        cases h
  | .method recv name opt args, n, binds, binds', hin, htable, h => by
    unfold reifyNode at h
    cases hrow : findRow name args.length (ty recv) with
    | none =>
      rw [hrow] at h
      cases h
    | some row =>
      rw [hrow] at h
      dsimp only at h
      obtain ⟨harity, hkind⟩ := findRow_spec hrow
      obtain ⟨a, rfl⟩ := List.length_eq_one_iff.mp harity
      rcases hkind with ⟨hrecv, harr⟩ | ⟨hrecv, hstr⟩
      · rw [if_pos hrecv] at h
        cases hr : reifyArrayReceiver recv binds with
        | error r =>
          rw [hr] at h
          cases h
        | ok p =>
          obtain ⟨rn, binds1⟩ := p
          rw [hr] at h
          dsimp only at h
          obtain ⟨an, binds2, ha, hn, hb⟩ := reifyArgs_singleton h
          obtain ⟨ext, k, b, hrn, hne, hext, htable', hget, hkey⟩ := reifyArrayReceiver_spec
            (hin recv true (.array harr)) htable hr
          obtain ⟨ext', hext', htable'', hmirrors⟩ := reifyNode_spec a an binds1 _
            (fun c b hc => hin c b (.arg hc)) htable' ha
          rw [hn, hb, hrn]
          refine ⟨ext ++ ext', ?_, htable'', .array harr hne ?_ hkey hmirrors⟩
          · rw [hext', hext, append_assoc]
          · rw [hext', getElem?_append_left (List.getElem?_eq_some_iff.mp hget).1]
            exact hget
      · rw [if_neg (by rw [hrecv]; decide)] at h
        cases hr : reifyNode ty params recv binds with
        | error r =>
          rw [hr] at h
          cases h
        | ok p =>
          obtain ⟨rn, binds1⟩ := p
          rw [hr] at h
          dsimp only at h
          obtain ⟨an, binds2, ha, hn, hb⟩ := reifyArgs_singleton h
          obtain ⟨ext, hext, htable', hmirrors⟩ := reifyNode_spec recv rn binds _
            (fun c b hc => hin c b (.recv hstr hc)) htable hr
          obtain ⟨ext', hext', htable'', hmirrors'⟩ := reifyNode_spec a an binds1 _
            (fun c b hc => hin c b (.arg hc)) htable' ha
          rw [hn, hb]
          refine ⟨ext ++ ext', ?_, htable'', .call hstr ?_ hmirrors'⟩
          · rw [hext', hext, append_assoc]
          · rw [hext']
            exact hmirrors.mono
  | .call _ _, n, binds, binds', _, _, h => by cases h
  | .construct _ _, n, binds, binds', _, _, h => by cases h

/-! ### Paths -/

theorem Ident.ext_text {x y : Ident} (h : x.text = y.text) : x = y := by
  obtain ⟨s, _, _, _⟩ := x
  obtain ⟨s', _, _, _⟩ := y
  cases h
  rfl

/-- The last dot of a path is the one before its last name. -/
theorem append_dot_inj {l l' r r' : List Char} (hr : '.' ∉ r) (hr' : '.' ∉ r')
    (h : l ++ '.' :: r = l' ++ '.' :: r') : l = l' ∧ r = r' := by
  rcases List.append_eq_append_iff.mp h with ⟨d, hl, hd⟩ | ⟨d, hl, hd⟩
  · cases d with
    | nil =>
      rw [append_nil] at hl
      rw [nil_append] at hd
      exact ⟨hl.symm, (List.cons.inj hd).2⟩
    | cons c d =>
      have hmem : '.' ∈ r := by
        rw [(List.cons.inj hd).2]
        simp
      exact absurd hmem hr
  · cases d with
    | nil =>
      rw [append_nil] at hl
      rw [nil_append] at hd
      exact ⟨hl, (List.cons.inj hd).2.symm⟩
    | cons c d =>
      have hmem : '.' ∈ r' := by
        rw [(List.cons.inj hd).2]
        simp
      exact absurd hmem hr'

/-- An expression that has a path: a name, `this`, or a plain member of one of these. -/
theorem pathOf_cases (h : pathOf e ≠ "") :
    (∃ x, e = .name x false ∧ pathOf e = x.text) ∨ (e = .this ∧ pathOf e = "this") ∨
      ∃ a x, e = .member a x .dot false ∧ pathOf a ≠ "" ∧ pathOf e = pathOf a ++ "." ++ x.text := by
  cases e with
  | name x weak =>
    cases weak with
    | true => exact absurd rfl h
    | false => exact .inl ⟨x, rfl, rfl⟩
  | this => exact .inr (.inl ⟨rfl, rfl⟩)
  | member a x link weak =>
    have hpath : pathOf (.member a x link weak) =
        if weak then "" else if link = .dot then
          if pathOf a = "" then "" else pathOf a ++ "." ++ x.text
        else "" := rfl
    rw [hpath] at h ⊢
    by_cases hweak : weak = true
    · rw [if_pos hweak] at h
      exact absurd rfl h
    · rw [if_neg hweak] at h ⊢
      by_cases hlink : link = .dot
      · rw [if_pos hlink] at h ⊢
        by_cases ha : pathOf a = ""
        · rw [if_pos ha] at h
          exact absurd rfl h
        · rw [if_neg ha]
          refine .inr (.inr ⟨a, x, ?_, ha, rfl⟩)
          rw [hlink, Bool.eq_false_iff.mpr hweak]
      · rw [if_neg hlink] at h
        exact absurd rfl h
  | lit v => exact absurd rfl h
  | unary op a => exact absurd rfl h
  | binary op a b => exact absurd rfl h
  | method recv name opt args => exact absurd rfl h
  | call callee args => exact absurd rfl h
  | construct kind parts => exact absurd rfl h

theorem dot_mem_member_path (s : String) (x : Ident) : '.' ∈ (s ++ "." ++ x.text).toList := by
  simp

/-- Two expressions with the same path are the same. -/
theorem pathOf_inj : ∀ (e e' : Ex), pathOf e ≠ "" → pathOf e = pathOf e' → e = e' := by
  intro e
  have hthis : '.' ∉ "this".toList := by decide
  induction h : sizeOf e using Nat.strongRecOn generalizing e with
  | _ n ih =>
    intro e' hne heq
    rcases pathOf_cases hne with ⟨x, rfl, hp⟩ | ⟨rfl, hp⟩ | ⟨a, x, rfl, ha, hp⟩
    · rcases pathOf_cases (heq ▸ hne) with ⟨y, rfl, hp'⟩ | ⟨rfl, hp'⟩ | ⟨b, y, rfl, hb, hp'⟩
      · rw [hp, hp'] at heq
        rw [Ident.ext_text heq]
      · rw [hp, hp'] at heq
        exact absurd heq x.notThis
      · rw [hp, hp'] at heq
        exact absurd (heq ▸ dot_mem_member_path _ y) x.plain
    · rcases pathOf_cases (heq ▸ hne) with ⟨y, rfl, hp'⟩ | ⟨rfl, hp'⟩ | ⟨b, y, rfl, hb, hp'⟩
      · rw [hp, hp'] at heq
        exact absurd heq.symm y.notThis
      · rfl
      · rw [hp, hp'] at heq
        exact absurd (heq ▸ dot_mem_member_path _ y) hthis
    · rcases pathOf_cases (heq ▸ hne) with ⟨y, rfl, hp'⟩ | ⟨rfl, hp'⟩ | ⟨b, y, rfl, hb, hp'⟩
      · rw [hp, hp'] at heq
        exact absurd (heq.symm ▸ dot_mem_member_path _ x) y.plain
      · rw [hp, hp'] at heq
        exact absurd (heq.symm ▸ dot_mem_member_path _ x) hthis
      · rw [hp, hp'] at heq
        have hlists : (pathOf a).toList ++ '.' :: x.text.toList =
            (pathOf b).toList ++ '.' :: y.text.toList := by
          have := congrArg String.toList heq
          simpa using this
        obtain ⟨hpath, hname⟩ := append_dot_inj x.plain y.plain hlists
        have hab : a = b := by
          refine ih (sizeOf a) ?_ a rfl b ha (String.toList_inj.mp hpath)
          rw [← h]
          show sizeOf a < 1 + sizeOf a + sizeOf x + sizeOf Link.dot + sizeOf false
          omega
        rw [hab, Ident.ext_text (String.toList_inj.mp hname)]

/-! ### Captures and slots -/

theorem Captured.storeNone_iff (h : Captured ty params e c b) :
    (b = true ∧ ty c = .array) ∨ (b = false ∧ IsCapture ty params c) := by
  induction h with
  | self h => exact .inr ⟨rfl, h⟩
  | unary _ ih => exact ih
  | left _ ih => exact ih
  | right _ ih => exact ih
  | array h => exact .inl ⟨rfl, h⟩
  | recv _ _ ih => exact ih
  | arg _ ih => exact ih

/-- An expression is captured for its value or as an array, and not both. -/
theorem Captured.storeNone_unique {e' : Ex} {b' : Bool} (h : Captured ty params e c b)
    (h' : Captured ty params e' c b') : b = b' := by
  rcases h.storeNone_iff with ⟨hb, harr⟩ | ⟨hb, hcap⟩
  · rcases h'.storeNone_iff with ⟨hb', _⟩ | ⟨_, hcap'⟩
    · rw [hb, hb']
    · have hdb := hcap'.1
      rw [harr] at hdb
      cases hdb
  · rcases h'.storeNone_iff with ⟨_, harr'⟩ | ⟨hb', _⟩
    · have hdb := hcap.1
      rw [harr'] at hdb
      cases hdb
    · rw [hb, hb']

theorem Stands.captured (h : Stands ty params n e k c b) : Captured ty params e c b := by
  induction h with
  | self h => exact .self h
  | unary _ ih => exact .unary ih
  | left _ ih => exact .left ih
  | right _ ih => exact .right ih
  | array h => exact .array h
  | recv h _ ih => exact .recv h ih
  | arg _ ih => exact .arg ih

theorem Mirrors.bind_of_capture {binds : List BindEntry} (h : Mirrors ty params binds n e)
    (hcap : IsCapture ty params e) :
    ∃ k b, n = .bind k ∧ binds[k]? = some b ∧ b.key = pathOf e := by
  rcases hcap.2 with ⟨x, weak, rfl, hnone, hx⟩ | ⟨a, x, link, weak, rfl, hcolon, hroot⟩
  · cases h with
    | none h => exact absurd h hnone
    | bind _ hb hkey => exact ⟨_, _, rfl, hb, hkey⟩
  · cases h with
    | enum => cases hcolon
    | field _ h =>
      rw [hroot] at h
      cases h
    | bind _ hb hkey => exact ⟨_, _, rfl, hb, hkey⟩

/-- Each captured expression has a `Bind` that stands for it, and its slot is keyed by the
path of the expression. -/
theorem Captured.stands {binds : List BindEntry} (h : Captured ty params e c b)
    (hm : Mirrors ty params binds n e) :
    ∃ k, Stands ty params n e k c b := by
  induction h generalizing n with
  | self h =>
    obtain ⟨k, _, rfl, _, _⟩ := hm.bind_of_capture h
    exact ⟨k, .self h⟩
  | unary _ ih =>
    cases hm with
    | un _ hm =>
      obtain ⟨k, hk⟩ := ih hm
      exact ⟨k, .unary hk⟩
    | bind hcap => cases hcap.isChain
  | left _ ih =>
    cases hm with
    | bin _ hm _ =>
      obtain ⟨k, hk⟩ := ih hm
      exact ⟨k, .left hk⟩
    | bind hcap => cases hcap.isChain
  | right _ ih =>
    cases hm with
    | bin _ _ hm =>
      obtain ⟨k, hk⟩ := ih hm
      exact ⟨k, .right hk⟩
    | bind hcap => cases hcap.isChain
  | array harr =>
    cases hm with
    | array => exact ⟨_, .array harr⟩
    | call hstr =>
      rw [harr] at hstr
      cases hstr
    | bind hcap => cases hcap.isChain
  | recv hstr _ ih =>
    cases hm with
    | array harr =>
      rw [harr] at hstr
      cases hstr
    | call _ hm _ =>
      obtain ⟨k, hk⟩ := ih hm
      exact ⟨k, .recv hstr hk⟩
    | bind hcap => cases hcap.isChain
  | arg _ ih =>
    cases hm with
    | array _ _ _ _ hm =>
      obtain ⟨k, hk⟩ := ih hm
      exact ⟨k, .arg hk⟩
    | call _ _ hm =>
      obtain ⟨k, hk⟩ := ih hm
      exact ⟨k, .arg hk⟩
    | bind hcap => cases hcap.isChain

theorem Stands.entry {binds : List BindEntry} (h : Stands ty params n e k c b)
    (hm : Mirrors ty params binds n e) :
    ∃ entry, binds[k]? = some entry ∧ entry.key = pathOf c := by
  induction h with
  | self h =>
    obtain ⟨k', entry, hk, hentry, hkey⟩ := hm.bind_of_capture h
    cases hk
    exact ⟨entry, hentry, hkey⟩
  | unary _ ih =>
    cases hm with
    | un _ hm => exact ih hm
  | left _ ih =>
    cases hm with
    | bin _ hm _ => exact ih hm
  | right _ ih =>
    cases hm with
    | bin _ _ hm => exact ih hm
  | array harr =>
    cases hm with
    | array _ _ hb hkey _ => exact ⟨_, hb, hkey⟩
    | call hstr =>
      rw [harr] at hstr
      cases hstr
  | recv hstr _ ih =>
    cases hm with
    | array harr =>
      rw [harr] at hstr
      cases hstr
    | call _ hm _ => exact ih hm
  | arg _ ih =>
    cases hm with
    | array _ _ _ _ hm => exact ih hm
    | call _ _ hm => exact ih hm

/-- Captures with the same path have the same slot. -/
theorem slot_unique {captured : Ex → Bool → Prop} {binds : List BindEntry}
    (htable : Table captured binds) {k' : Nat} {entry entry' : BindEntry}
    (h : binds[k]? = some entry) (h' : binds[k']? = some entry') (hkey : entry.key = entry'.key) :
    k = k' := by
  have hlt : k < (binds.map BindEntry.key).length := by
    rw [length_map]
    exact (List.getElem?_eq_some_iff.mp h).1
  refine (getElem?_inj hlt htable.distinct).mp ?_
  rw [getElem?_map, getElem?_map, h, h', Option.map_some, Option.map_some, hkey]

/-! ### Agreement -/

/-- The condition: the captures without a path are one expression, and no capture reads a
parameter. -/
structure Harmless (ty : Ex → Ty) (params : List Ident) (body : Ex) : Prop where
  shared : ∀ c c', Captured ty params body c false → Captured ty params body c' false →
    pathOf c = "" → pathOf c' = "" → c = c'
  closed : ∀ c, Captured ty params body c false → ∀ p ∈ params, p ∉ c.vars

/-- The receiver of an array call has a path. -/
theorem Captured.path_ne {binds : List BindEntry} (h : Captured ty params e c b)
    (hm : Mirrors ty params binds n e) (hb : b = true) :
    pathOf c ≠ "" := by
  induction h generalizing n with
  | self h => cases hb
  | unary _ ih =>
    cases hm with
    | un _ hm => exact ih hm hb
    | bind hcap => cases hcap.isChain
  | left _ ih =>
    cases hm with
    | bin _ hm _ => exact ih hm hb
    | bind hcap => cases hcap.isChain
  | right _ ih =>
    cases hm with
    | bin _ _ hm => exact ih hm hb
    | bind hcap => cases hcap.isChain
  | array harr =>
    cases hm with
    | array _ hne _ _ _ => exact hne
    | call hstr =>
      rw [harr] at hstr
      cases hstr
    | bind hcap => cases hcap.isChain
  | recv hstr _ ih =>
    cases hm with
    | array harr =>
      rw [harr] at hstr
      cases hstr
    | call _ hm _ => exact ih hm hb
    | bind hcap => cases hcap.isChain
  | arg _ ih =>
    cases hm with
    | array _ _ _ _ hm => exact ih hm hb
    | call _ _ hm => exact ih hm hb
    | bind hcap => cases hcap.isChain

/-- Captures with the same path are the same. -/
theorem Harmless.same {binds : List BindEntry} {body : Ex} (h : Harmless ty params body)
    (hm : Mirrors ty params binds n body) {c' : Ex} {b' : Bool} (hc : Captured ty params body c b)
    (hc' : Captured ty params body c' b') (hpath : pathOf c = pathOf c') :
    c = c' := by
  by_cases hempty : pathOf c = ""
  · cases b with
    | true => exact absurd hempty (hc.path_ne hm rfl)
    | false =>
      cases b' with
      | true => exact absurd (hpath ▸ hempty) (hc'.path_ne hm rfl)
      | false => exact h.shared c c' hc hc' hempty (hpath ▸ hempty)
  · exact pathOf_inj c c' hempty hpath

theorem opNamed_reifyOp {op : Op} (h : reifyBinaryOk op = true ∨ op = .bang ∨ op = .minus) :
    opNamed (reifyOp op) = op := by
  cases op <;> first | rfl | simp [reifyBinaryOk] at h

theorem forall₂_getElem? {α β : Type} {R : α → β → Prop} {as : List α} {bs : List β}
    (h : List.Forall₂ R as bs) : ∀ {k : Nat} {a : α}, as[k]? = some a →
      ∃ b, bs[k]? = some b ∧ R a b := by
  induction h with
  | nil =>
    intro k a ha
    simp at ha
  | cons hab _ ih =>
    intro k a ha
    cases k with
    | zero =>
      cases ha
      exact ⟨_, rfl, hab⟩
    | succ k => exact ih ha

section Agreement

variable {V : Type} {M : Meaning V} {lam : Lambda} {body : Ex} {tree : Node}
  {binds : List BindEntry} {vs : List V} {outer : Env V} {recs : Ident → Option V}

/-- What is known of the table of an accepted body. -/
structure Accepted (ty : Ex → Ty) (params : List Ident) (body : Ex) (tree : Node)
    (binds : List BindEntry) : Prop where
  mirrors : Mirrors ty params binds tree body
  table : Table (Captured ty params body) binds

/-- The entry of a slot holds the very expression that the slot is keyed by. -/
theorem Accepted.entry (hacc : Accepted ty params body tree binds) (h : Harmless ty params body)
    {entry : BindEntry} (he : Captured ty params body e b) (hentry : binds[k]? = some entry)
    (hkey : entry.key = pathOf e) : entry.capture = e ∧ entry.storeNone = b := by
  obtain ⟨hsrc, hpath⟩ := hacc.table.source entry (mem_of_getElem? hentry)
  have hsame : entry.capture = e := h.same hacc.mirrors hsrc he (by rw [← hpath, hkey])
  refine ⟨hsame, ?_⟩
  rw [hsame] at hsrc
  exact hsrc.storeNone_unique he

/-- A captured value is the same outside of the lambda and in its body. -/
theorem Harmless.eval_capture (h : Harmless ty lam.params body)
    (hc : Captured ty lam.params body c false) :
    eval M outer c = eval M (lam.callEnv outer recs) c := by
  have hthis : outer.this = (lam.callEnv outer recs).this := rfl
  refine eval_congr M hthis c ?_
  intro x hx
  have hout : x ∉ lam.params := fun hp => h.closed c hc x hp hx
  exact (if_neg hout).symm

/-- The frame of a call. -/
def callFrame (M : Meaning V) (lam : Lambda) (outer : Env V) (recs : Ident → Option V)
    (binds : List BindEntry) (vs : List V) : Frame V :=
  ⟨recs, vs, arraysOf M (lam.callEnv outer recs) binds⟩

/-- A call node, its receiver evaluated as a node unless its slot holds a marker. -/
theorem evalNode_call {f : Frame V} {name : String} {m : Node}
    (h : ∀ k, n = .bind k → f.arrays k = none) :
    evalNode M f (.call name n [m]) = M.call (evalNode M f n) name [evalNode M f m] := by
  cases n with
  | bind k =>
    show M.call ((f.arrays k).getD f.binds[k]?) name [evalNode M f m] = _
    rw [h k rfl]
    rfl
  | field root path => rfl
  | lit v => rfl
  | un op e => rfl
  | bin op l r => rfl
  | call name' recv args => rfl
  | assign root path value => rfl

/-- The tree of a part of the body evaluates as the part. -/
theorem Accepted.agrees (hacc : Accepted ty lam.params body tree binds)
    (h : Harmless ty lam.params body) (hcreated : Created M outer binds vs)
    (hm : Mirrors ty lam.params binds n e)
    (hsub : ∀ c b, Captured ty lam.params e c b → Captured ty lam.params body c b) :
    evalNode M (callFrame M lam outer recs binds vs) n = eval M (lam.callEnv outer recs) e := by
  induction hm with
  | lit v => rfl
  | none hnone =>
    unfold eval
    rw [if_pos hnone]
    rfl
  | enum => rfl
  | @field a x root link weak hcolon hroot =>
    unfold paramRoot at hroot
    cases hchain : a.root with
    | name y weak' =>
      rw [hchain] at hroot
      dsimp only at hroot
      by_cases hy : y ∈ lam.params
      · rw [if_pos hy] at hroot
        cases hroot
        rw [eval_chain M _ (lam.named root hy) (.member a x link weak) hchain hcolon]
        show readPath M (recs root) (a.segs ++ [x]) = readPath M (if _ then _ else _) _
        rw [if_pos hy]
        rfl
      · rw [if_neg hy] at hroot
        cases hroot
    | _ =>
      rw [hchain] at hroot
      cases hroot
  | @bind e k entry hcap hentry hkey =>
    have hc := hsub e false (.self hcap)
    obtain ⟨hcapture, hstore⟩ := hacc.entry h hc hentry hkey
    obtain ⟨v, hv, hout⟩ := forall₂_getElem? hcreated hentry
    unfold BindEntry.outcome at hout
    rw [hstore, hcapture] at hout
    show vs[k]? = _
    rw [hv, ← h.eval_capture hc]
    exact hout.symm
  | @un op n a hop hm ih =>
    unfold evalNode eval
    rw [ih fun c b hc => hsub c b (.unary hc), opNamed_reifyOp (.inr hop)]
  | @bin op n m l r hop hn hm ihl ihr =>
    unfold evalNode eval
    rw [ihl fun c b hc => hsub c b (.left hc), ihr fun c b hc => hsub c b (.right hc),
      opNamed_reifyOp (.inl hop)]
  | @array m recv a name k entry opt harr hne hentry hkey hm ih =>
    have hc := hsub recv true (.array harr)
    obtain ⟨hcapture, hstore⟩ := hacc.entry h hc hentry hkey
    have harrays : (callFrame M lam outer recs binds vs).arrays k =
        some (eval M (lam.callEnv outer recs) recv) := by
      show arraysOf M (lam.callEnv outer recs) binds k = _
      unfold arraysOf
      rw [hentry]
      dsimp only
      rw [hstore, hcapture]
      rfl
    unfold evalNode
    rw [harrays]
    show M.call _ _ [evalNode M _ m] = M.call _ _ [eval M _ a]
    rw [ih fun c b hc => hsub c b (.arg hc)]
    rfl
  | @call n m recv a name opt hstr hn hm ihn ihm =>
    rw [evalNode_call]
    · rw [ihn fun c b hc => hsub c b (.recv hstr hc), ihm fun c b hc => hsub c b (.arg hc)]
      rfl
    · intro k hk
      subst hk
      cases hn with
      | bind hcap hentry hkey =>
        obtain ⟨_, hstore⟩ := hacc.entry h (hsub _ false (.recv hstr (.self hcap))) hentry hkey
        show arraysOf M (lam.callEnv outer recs) binds k = none
        unfold arraysOf
        rw [hentry]
        dsimp only
        rw [hstore]
        rfl

end Agreement

/-! ### Whole lambdas -/

/-- The tree without the assignment around it. -/
def Node.value : Node → Node
  | .assign _ _ n => n
  | n => n

/-- An accepted lambda: an assignment to a field of a parameter, or an expression. -/
theorem reifyLambda_cases {lam : Lambda} {tree : Node} {binds : List BindEntry}
    (h : reifyLambda ty lam.params lam.arity lam.setShaped (.expr lam.body) = .ok (tree, binds)) :
    (∃ lhs rhs root n, lam.setShaped = true ∧ lam.body = .binary .eq lhs rhs ∧
      paramRoot lam.params lhs = some root ∧ tree = .assign root lhs.segs n ∧
      reifyNode ty lam.params rhs [] = .ok (n, binds)) ∨
    (¬ (lam.setShaped = true ∧ ∃ lhs rhs, lam.body = .binary .eq lhs rhs) ∧
      reifyNode ty lam.params lam.body [] = .ok (tree, binds)) := by
  unfold reifyLambda at h
  by_cases harity : lam.params.length ≠ lam.arity
  · rw [if_pos harity] at h
    cases h
  rw [if_neg harity] at h
  dsimp only at h
  by_cases herror : ty lam.body = .error
  · rw [if_pos herror] at h
    cases h
  rw [if_neg herror] at h
  split at h
  · next lhs rhs hbody =>
      by_cases hset : lam.setShaped = true
      · rw [if_pos hset] at h
        cases lhs with
        | member a x link weak =>
          dsimp only at h
          by_cases hcolon : (Ex.member a x link weak).anyColon = true
          · rw [if_pos hcolon] at h
            cases h
          rw [if_neg hcolon] at h
          cases hroot : paramRoot lam.params a with
          | none =>
            rw [hroot] at h
            cases h
          | some root =>
            rw [hroot] at h
            dsimp only at h
            cases hr : reifyNode ty lam.params rhs [] with
            | error r =>
              rw [hr] at h
              cases h
            | ok p =>
              obtain ⟨n, binds1⟩ := p
              rw [hr] at h
              cases h
              exact .inl ⟨_, rhs, root, n, hset, hbody, hroot, rfl, hr⟩
        | _ => cases h
      · rw [if_neg hset, ← hbody] at h
        exact .inr ⟨fun h => hset h.1, h⟩
  · next hbody =>
      refine .inr ⟨?_, h⟩
      intro hset
      obtain ⟨_, lhs, rhs, heq⟩ := hset
      exact hbody lhs rhs heq

theorem table_nil (captured : Ex → Bool → Prop) : Table captured [] := by
  refine ⟨?_, nodup_nil⟩
  intro b hb
  cases hb

theorem accepted_of_reifyNode {body : Ex} {binds : List BindEntry}
    (h : reifyNode ty params body [] = .ok (n, binds)) : Accepted ty params body n binds := by
  obtain ⟨_, _, htable, hmirrors⟩ :=
    reifyNode_spec body n [] binds (fun c b hc => hc) (table_nil _) h
  exact ⟨hmirrors, htable⟩

theorem Mirrors.value_eq {binds : List BindEntry} (h : Mirrors ty params binds n e) :
    n.value = n := by
  cases h <;> rfl

theorem Mirrors.runTree_eq {V : Type} (M : Meaning V) (f : Frame V) {binds : List BindEntry}
    (h : Mirrors ty params binds n e) :
    runTree M f n = (evalNode M f n).map .value := by
  cases h <;> rfl

theorem reads_of_assign {lam : Lambda} {lhs rhs : Ex} (hset : lam.setShaped = true)
    (hbody : lam.body = .binary .eq lhs rhs) : lam.reads = rhs := by
  unfold Lambda.reads
  rw [if_pos hset, hbody]

theorem reads_of_expr {lam : Lambda}
    (h : ¬ (lam.setShaped = true ∧ ∃ lhs rhs, lam.body = .binary .eq lhs rhs)) :
    lam.reads = lam.body := by
  unfold Lambda.reads
  by_cases hset : lam.setShaped = true
  · rw [if_pos hset]
    split
    · next lhs rhs hbody => exact absurd ⟨hset, lhs, rhs, hbody⟩ h
    · rfl
  · rw [if_neg hset]

theorem run_of_expr {V : Type} (M : Meaning V) (env : Env V) {lam : Lambda}
    (h : ¬ (lam.setShaped = true ∧ ∃ lhs rhs, lam.body = .binary .eq lhs rhs)) :
    lam.run M env = (eval M env lam.body).map .value := by
  unfold Lambda.run
  by_cases hset : lam.setShaped = true
  · rw [if_pos hset]
    split
    · next lhs rhs hbody => exact absurd ⟨hset, lhs, rhs, hbody⟩ h
    · rfl
  · rw [if_neg hset]

/-- The reads of an accepted lambda, with their tree. -/
theorem accepted_reads {lam : Lambda} {tree : Node} {binds : List BindEntry}
    (h : reifyLambda ty lam.params lam.arity lam.setShaped (.expr lam.body) = .ok (tree, binds)) :
    Accepted ty lam.params lam.reads tree.value binds := by
  rcases reifyLambda_cases h with ⟨lhs, rhs, root, n, hset, hbody, _, rfl, hr⟩ | ⟨hno, hr⟩
  · rw [reads_of_assign hset hbody]
    exact accepted_of_reifyNode hr
  · have hacc := accepted_of_reifyNode hr
    rw [reads_of_expr hno, hacc.mirrors.value_eq]
    exact hacc

/-- The tree and the closure of a lambda agree for all records and captures; different
captured expressions have different slots; and each slot holds the value of the very
expression that its `Bind` stands for. -/
structure Faithful (ty : Ex → Ty) (lam : Lambda) (tree : Node) (binds : List BindEntry) :
    Prop where
  agrees : ∀ (V : Type) (M : Meaning V) (outer : Env V) (recs : Ident → Option V) (vs : List V),
    Created M outer binds vs →
    runTree M (callFrame M lam outer recs binds vs) tree = lam.run M (lam.callEnv outer recs)
  distinct : ∀ k c c' b b', Stands ty lam.params tree.value lam.reads k c b →
    Stands ty lam.params tree.value lam.reads k c' b' → c = c'
  holds : ∀ k c, Stands ty lam.params tree.value lam.reads k c false →
    ∀ (V : Type) (M : Meaning V) (outer : Env V) (recs : Ident → Option V),
      ∃ entry, binds[k]? = some entry ∧
        entry.outcome M outer = eval M (lam.callEnv outer recs) c

/-! ### Reading a parameter -/

/-- Values that tell whether a marked variable was read. -/
def taint : Meaning Bool where
  lit := fun _ => false
  isNone := fun _ => false
  field := fun v _ => some v
  un := fun _ v => some v
  short := fun _ _ => none
  bin := fun _ a b => some (a || b)
  method := fun v _ args => some (v || args.any (· = some true))
  apply := fun f args => some (decide (f = some true) || args.any (· = some true))
  qualified := fun _ => some false
  construct := fun _ parts => some (parts.any (· = some true))

theorem decide_some_eq_true (b : Bool) : decide (some b = some true) = b := by
  cases b <;> rfl

mutual

theorem eval_taint (marked : Ident → Bool) :
    ∀ e : Ex, eval taint ⟨fun x => some (marked x), some false⟩ e = some (e.vars.any marked)
  | .lit _ => rfl
  | .name x _ => by
    unfold eval Ex.vars
    by_cases hx : x.text = "None"
    · rw [if_pos hx, if_pos hx]
      rfl
    · rw [if_neg hx, if_neg hx]
      simp
  | .this => rfl
  | .member _ _ (.colon (some _)) _ => rfl
  | .member _ _ (.colon none) _ => rfl
  | .member a _ .dot _ => by
    unfold eval
    rw [eval_taint marked a]
    rfl
  | .member a _ .optChain _ => by
    unfold eval
    rw [eval_taint marked a]
    rfl
  | .unary _ a => by
    unfold eval
    rw [eval_taint marked a]
    rfl
  | .binary _ a b => by
    unfold eval
    rw [eval_taint marked a, eval_taint marked b]
    show some (_ || _) = some ((a.vars ++ b.vars).any marked)
    rw [any_append]
  | .method recv _ _ args => by
    unfold eval
    rw [eval_taint marked recv]
    show some (_ || (evalAll taint _ args).any _) = some ((recv.vars ++ varsAll args).any marked)
    rw [evalAll_taint marked args, any_append]
  | .call callee args => by
    unfold eval
    rw [eval_taint marked callee]
    show some (_ || (evalAll taint _ args).any _) = some ((callee.vars ++ varsAll args).any marked)
    rw [evalAll_taint marked args, any_append, decide_some_eq_true]
  | .construct _ parts => by
    unfold eval
    show some ((evalAll taint _ parts).any _) = some ((varsAll parts).any marked)
    rw [evalAll_taint marked parts]

theorem evalAll_taint (marked : Ident → Bool) :
    ∀ es : List Ex, (evalAll taint ⟨fun x => some (marked x), some false⟩ es).any (· = some true) =
      (varsAll es).any marked
  | [] => rfl
  | e :: es => by
    unfold evalAll varsAll
    rw [any_cons, evalAll_taint marked es, eval_taint marked e, any_append,
      decide_some_eq_true]

end

/-- A captured expression that reads a parameter has another value outside of the lambda. -/
theorem Faithful.closed {lam : Lambda} {tree : Node} {binds : List BindEntry}
    (hacc : Accepted ty lam.params lam.reads tree.value binds) (h : Faithful ty lam tree binds)
    (hc : Captured ty lam.params lam.reads c false) :
    ∀ p ∈ lam.params, p ∉ c.vars := by
  intro p hp hmem
  obtain ⟨k, hk⟩ := hc.stands hacc.mirrors
  let outer : Env Bool := ⟨fun _ => some false, some false⟩
  obtain ⟨entry, _, hsame⟩ := h.holds k c hk Bool taint outer (fun _ => some true)
  -- outside nothing is marked, in the body the parameters are
  have hcall : lam.callEnv outer (fun _ => some true) =
      ⟨fun x => some (decide (x ∈ lam.params)), some false⟩ := by
    unfold Lambda.callEnv
    congr 1
    funext x
    by_cases hx : x ∈ lam.params
    · rw [if_pos hx, decide_eq_true hx]
    · rw [if_neg hx, decide_eq_false hx]
  have hout : entry.outcome taint outer = some false := by
    unfold BindEntry.outcome
    split
    · rfl
    · rw [eval_taint (fun _ => false) entry.capture]
      simp
  rw [hout, hcall, eval_taint (fun x => decide (x ∈ lam.params)) c] at hsame
  have hany : c.vars.any (fun x => decide (x ∈ lam.params)) = true :=
    List.any_eq_true.mpr ⟨p, hmem, decide_eq_true hp⟩
  rw [hany] at hsame
  cases hsame

def wordU : Ident := ⟨"u", by decide, by decide, by decide⟩

def wordName : Ident := ⟨"name", by decide, by decide, by decide⟩

def wordCfg : Ident := ⟨"cfg", by decide, by decide, by decide⟩

def wordFirst : Ident := ⟨"first", by decide, by decide, by decide⟩

def wordLast : Ident := ⟨"last", by decide, by decide, by decide⟩

/-- `cfg?.x` for an object `cfg` from around the lambda. -/
def cfgMember (x : Ident) : Ex := .member (.name wordCfg false) x .optChain false

/-- `(u) => u.name == cfg?.first || u.name == cfg?.last`. -/
def eitherName : Lambda where
  params := [wordU]
  named := by decide
  arity := 1
  setShaped := false
  body := .binary .pipePipe
    (.binary .eqEq (.member (.name wordU false) wordName .dot false) (cfgMember wordFirst))
    (.binary .eqEq (.member (.name wordU false) wordName .dot false) (cfgMember wordLast))

/-- The tree of `eitherName`: both chains are read from slot 0. -/
def eitherTree : Node :=
  .bin "||" (.bin "==" (.field wordU [wordName]) (.bind 0))
    (.bin "==" (.field wordU [wordName]) (.bind 0))

theorem reify_eitherName :
    reifyLambda (fun _ => .value) eitherName.params eitherName.arity eitherName.setShaped
      (.expr eitherName.body) = .ok (eitherTree, [⟨"", cfgMember wordFirst, false⟩]) := by
  rfl

/-- Strings for values: a record is its own name, and a member of `cfg` is the member's. -/
def nameMeaning : Meaning String where
  lit := fun _ => ""
  isNone := fun _ => false
  field := fun v x => if x = wordName then some v else some x.text
  un := fun _ v => some v
  short := fun op v => if op = .pipePipe ∧ v = "true" then some v else none
  bin := fun op a b => if op = .eqEq then some (if a = b then "true" else "false") else some b
  method := fun v _ _ => some v
  apply := fun v _ => v
  qualified := fun _ => none
  construct := fun _ _ => none

end Leviathan.Sema.Reify
