import Leviathan.Frontend.Pratt

/-!
# Postfix forms

Names, literals, members, calls, macro calls, indices and type arguments: how the text of each of
them is read back from the texts of its parts.
-/

variable {info : ExprInfo} {xs xa : List Expr} {q : Nat → Cursor → Option (List Expr × Cursor)}
  {ka : List Spelling}

namespace Leviathan.Frontend.Pratt

open Syntax List

section
variable {els : Elsewhere} {ks : List Spelling} {x : Expr} {pinned : Bool}

/-! ### Atoms -/

theorem atomOf_kind {t : Token} (h : atomOf t = some info) :
    ¬ (t.kind = .Bang ∨ t.kind = .Minus ∨ t.kind = .Tilde) := by
  intro hk
  unfold atomOf at h
  rcases hk with hk | hk | hk <;> rw [hk] at h <;> cases h

/-- The place of the token is the place of the node, and nothing else of it. -/
theorem atomOf_moved {t : Token} {k : TokenKind} {text : Str}
    (h : atomOf ⟨k, ⟨0, 0⟩, text⟩ = some info) (hk : t.kind = k) (htext : t.text = text) :
    ∃ i, atomOf t = some i ∧ { i with span := ⟨0, 0⟩ } = info := by
  cases t with
  | mk kind span text' =>
    subst hk htext
    cases kind <;> first | cases h; done | exact ⟨_, rfl, Option.some.inj h⟩

/-- A primary expression of one token. -/
theorem atom_reads {k : Spelling}
    (h : ∀ t, Says t k → ∃ i, atomOf t = some i ∧ { i with span := ⟨0, 0⟩ } = info) :
    BaseReads els false [k] (.leaf info) := by
  intro ts rest ds hts hwoven hclear hrest _
  obtain ⟨t, rfl, ht⟩ := hts.single
  obtain ⟨i, hi, hinfo⟩ := h t ht
  obtain ⟨u, us, rfl⟩ := exists_cons_of_ne_nil hrest
  refine ⟨.leaf i, congrArg Expr.leaf hinfo, fun res hpost => ?_⟩
  have hprimary : Settles (fun n => parsePrimary els n ⟨t :: u :: us, ds⟩)
      (Expr.leaf i, ⟨u :: us, ds⟩) :=
    Settles.succ (Settles.pure _) fun n => parsePrimary_atom hi hrest
  exact Settles.succ (hprimary.bind (f := fun n r => parsePostfix els n r.1 r.2) hpost)
    fun n => parseUnary_primary (c := ⟨t :: u :: us, ds⟩) (atomOf_kind hi) hclear.1

/-! ### Members and indices -/

/-- The word after a dot. -/
structure Word where
  kind : TokenKind
  text : Str
  isWord : kind = .Identifier ∨ isContextualName kind = true

/-- `base.word`, `base::word` or `base?.word`. -/
def memberNode (base : Expr) (dots : Dots) (word : Word) : Expr :=
  let info : ExprInfo :=
    { kind := .Member, text := word.text, colon := dots = .colons, optChain := dots = .optional }
  operands info (some base) none none

theorem BaseReads.member (h : BaseReads els pinned ks x) (dots : Dots) (word : Word) :
    BaseReads els false (ks ++ [(dots.kind, none), (word.kind, some word.text)])
      (memberNode x dots word) := by
  intro ts rest ds hts hwoven hclear hrest _
  obtain ⟨tb, ts, rfl, htb, hts⟩ := hts.append
  obtain ⟨t, ts, rfl, ht, hts⟩ := hts.cons
  obtain ⟨u, rfl, hu⟩ := hts.single
  rw [append_assoc, cons_append, cons_append, nil_append] at hclear ⊢
  have htk : t.kind = dots.kind := ht.1
  have huk : u.kind = word.kind := hu.1
  have hut : u.text = word.text := hu.2 _ rfl
  have hafter : Woven (t :: u :: rest) := by
    refine .token ?_ (.token ?_ hwoven)
    · rw [htk]
      cases dots <;> decide
    · intro hk
      have hword := word.isWord
      rw [← huk, hk] at hword
      exact absurd hword (by decide)
  obtain ⟨e, he, hread⟩ := h tb (t :: u :: rest) ds htb hafter hclear (by simp) (by
    intro _
    rw [headKind_cons, htk]
    cases dots <;> decide)
  let info : ExprInfo :=
    { kind := .Member, span := e.info.span, text := u.text,
      colon := dots = .colons, optChain := dots = .optional }
  refine ⟨operands info (some e) none none, ?_, fun res hpost => hread res ?_⟩
  · rw [bare_operands]
    simp [he, memberNode, info, hut]
  · exact Settles.succ hpost fun n =>
      parsePostfix_member htk (by rw [huk]; exact word.isWord) hrest

theorem BaseReads.index {ki : List Spelling} {xi : Expr} {o : Nat}
    (h : BaseReads els pinned ks x) (hi : ExprReads els 0 o ki xi) (ho : 0 < o)
    (hki : WovenText ki) :
    BaseReads els false (ks ++ (.LBracket, none) :: (ki ++ [(.RBracket, none)]))
      (operands { kind := .Index } (some x) (some xi) none) := by
  intro ts rest ds hts hwoven hclear hrest _
  obtain ⟨tb, ts, rfl, htb, hts⟩ := hts.append
  obtain ⟨l, ts, rfl, hl, hts⟩ := hts.cons
  obtain ⟨ti, ts, rfl, hti, hts⟩ := hts.append
  obtain ⟨r, rfl, hr⟩ := hts.single
  rw [append_assoc, cons_append, append_assoc, cons_append,
    nil_append] at hclear ⊢
  have hlk : l.kind = .LBracket := hl.1
  have hrk : r.kind = .RBracket := hr.1
  have hclosing : Woven (r :: rest) := .token (by rw [hrk]; decide) hwoven
  have hopening : Woven (l :: (ti ++ r :: rest)) :=
    .token (by rw [hlk]; decide) (hki ti _ hti hclosing)
  obtain ⟨e, he, hread⟩ := h tb (l :: (ti ++ r :: rest)) ds htb hopening hclear (by simp) (by
    intro _
    rw [headKind_cons, hlk]
    decide)
  obtain ⟨ei, hei, hreadi⟩ := hi.done (d := ds) hti hclosing hclear.drop.tail (by simp)
    (by rw [headKind_cons, hrk]; rfl) (by rw [headKind_cons, hrk]; exact ho)
    (by rw [headKind_cons, hrk]; exact Or.inl rfl)
  refine ⟨operands { kind := .Index, span := e.info.span } (some e) (some ei) none, ?_,
    fun res hpost => hread res ?_⟩
  · rw [bare_operands]
    simp [he, hei]
  · have hclosed : (⟨r :: rest, ds⟩ : Cursor).expect .RBracket "']'" = ⟨rest, ds⟩ :=
      Cursor.expect_of_kind hrk hrest
    refine Settles.succ (hreadi.bind (f := fun n i => parsePostfix els n
      (operands { kind := .Index, span := e.info.span } (some e) (some i.1) none)
      (i.2.expect .RBracket "']'")) ?_) fun n => parsePostfix_index hlk (by simp)
    rw [hclosed]
    exact hpost

/-! ### Arguments -/

/-- The kinds that follow an argument. -/
def EndsArg (k : TokenKind) : Prop := k = .Comma ∨ k = .RParen

theorem EndsArg.stops {k : TokenKind} (h : EndsArg k) : startsPostfix k = false ∧ power k = 0 := by
  rcases h with h | h <;> rw [h] <;> exact ⟨rfl, rfl⟩

/-- The text of a list that `p` reads, up to the closing parenthesis. -/
def ListReads (p : Nat → Cursor → Option (List Expr × Cursor)) (ks : List Spelling)
    (xs : List Expr) : Prop :=
  ∀ ts rest ds, Spells ts ks → Woven rest → Clear (ts ++ rest) → headKind rest = .RParen →
    Woven (ts ++ rest) ∧
    ∃ es, es.map (bare.expr none) = xs ∧ Settles (fun n => p n ⟨ts ++ rest, ds⟩) (es, ⟨rest, ds⟩)

/-- What `p` is called for after an argument `e`: the rest of the list after a comma. -/
def moreList (p : Nat → Cursor → Option (List Expr × Cursor)) (e : Expr) (n : Nat) (c : Cursor) :
    Option (List Expr × Cursor) :=
  if c.kind = .Comma then p n c.advance >>= fun more => some (e :: more.1, more.2)
  else some ([e], c)

/-- The text after an argument. -/
def MoreReads (p : Nat → Cursor → Option (List Expr × Cursor)) (ks : List Spelling)
    (xs : List Expr) : Prop :=
  ∀ ts rest ds, Spells ts ks → Woven rest → Clear (ts ++ rest) → headKind rest = .RParen →
    EndsArg (headKind (ts ++ rest)) ∧ Woven (ts ++ rest) ∧
    ∃ es, es.map (bare.expr none) = xs ∧
      ∀ e, Settles (fun n => moreList p e n ⟨ts ++ rest, ds⟩) (e :: es, ⟨rest, ds⟩)

theorem MoreReads.nil (p : Nat → Cursor → Option (List Expr × Cursor)) : MoreReads p [] [] := by
  intro ts rest ds hts hwoven hclear hrest
  cases hts
  refine ⟨Or.inr hrest, hwoven, [], rfl, fun e => Settles.of_forall fun n => ?_⟩
  show moreList p e n ⟨rest, ds⟩ = _
  have hk : (⟨rest, ds⟩ : Cursor).kind ≠ .Comma := by
    show headKind rest ≠ .Comma
    rw [hrest]
    decide
  rw [moreList, if_neg hk]

theorem ne_nil_of_headKind {rest : List Token} (h : headKind rest = .RParen) : rest ≠ [] := by
  intro hrest
  subst hrest
  exact absurd h (by decide)

theorem ListReads.more {p : Nat → Cursor → Option (List Expr × Cursor)} (h : ListReads p ks xs) :
    MoreReads p ((.Comma, none) :: ks) xs := by
  intro ts rest ds hts hwoven hclear hrest
  obtain ⟨t, ts, rfl, ht, hts⟩ := hts.cons
  have htk : t.kind = .Comma := ht.1
  have hne : ts ++ rest ≠ [] := fun h => ne_nil_of_headKind hrest (List.append_eq_nil_iff.mp h).2
  rw [cons_append] at hclear ⊢
  obtain ⟨hlist, es, hes, hread⟩ := h ts rest ds hts hwoven hclear.tail hrest
  refine ⟨Or.inl htk, .token (by rw [htk]; decide) hlist, es, hes, fun e => ?_⟩
  have hmore : (fun n => moreList p e n ⟨t :: (ts ++ rest), ds⟩) =
      fun n => p n ⟨ts ++ rest, ds⟩ >>= fun more => some (e :: more.1, more.2) := by
    funext n
    rw [moreList, if_pos (by exact htk), Cursor.advance_of_ne hne]
  rw [hmore]
  exact hread.bind (f := fun _ more => some (e :: more.1, more.2)) (Settles.pure _)

variable {p : Nat → Cursor → Option (List Expr × Cursor)} {km : List Spelling} {xm : List Expr}
  {o : Nat}

/-- An argument in its place: `p` reads an expression where `g` leads it, puts `mark` on it,
and goes on behind it with `q`. -/
theorem ExprReads.argument {k : List Spelling} {g : Cursor → Cursor} (mark : Expr → Expr)
    (hmark : ∀ e, bare.expr none (mark e) = mark (bare.expr none e))
    (hp : ∀ ts rest ds, Spells ts (k ++ ks) → EndsArg (headKind rest) → ∀ n,
      p (n + 1) ⟨ts ++ rest, ds⟩ = parseExpr els n 0 (g ⟨ts ++ rest, ds⟩) >>= fun arg =>
      moreList q (mark arg.1) n arg.2)
    (hstart : ∀ t₀ ts ds, Spells t₀ k → ts ≠ [] → g ⟨t₀ ++ ts, ds⟩ = ⟨ts, ds⟩)
    (h : ExprReads els 0 o ks x) (ho : 0 < o) (htext : WovenText (k ++ ks))
    (hmore : MoreReads q km xm) :
    ListReads p (k ++ ks ++ km) (mark x :: xm) := by
  intro ts rest ds hts hwoven hclear hrest
  obtain ⟨te, tm, rfl, hte, htm⟩ := hts.append
  obtain ⟨t₀, te, rfl, ht₀, hte'⟩ := hte.append
  rw [append_assoc] at hclear ⊢
  obtain ⟨hends, hlist, es, hes, hreads⟩ := hmore tm rest ds htm hwoven hclear.drop hrest
  have hclear' : Clear (te ++ (tm ++ rest)) := by
    rw [append_assoc] at hclear
    exact hclear.drop
  have hne : tm ++ rest ≠ [] := fun h => ne_nil_of_headKind hrest (List.append_eq_nil_iff.mp h).2
  obtain ⟨e, he, hread⟩ := h.done (d := ds) hte' hlist hclear' hne hends.stops.1
    (by rw [hends.stops.2]; exact ho) (Or.inl hends.stops.2)
  refine ⟨htext _ _ hte hlist, mark e :: es, ?_, ?_⟩
  · rw [map_cons, hmark, he, hes]
  · refine Settles.succ (hread.bind (f := fun n arg => moreList q (mark arg.1) n arg.2)
      (hreads (mark e))) fun n => ?_
    rw [hp _ _ ds hte hends n, append_assoc,
      hstart t₀ (te ++ (tm ++ rest)) ds ht₀ (fun h => hne (List.append_eq_nil_iff.mp h).2)]

variable (els) in
/-- The text of arguments of a call and of a macro call; `named` is set after a named one. -/
def ArgsRead (named : Bool) (ks : List Spelling) (xs : List Expr) : Prop :=
  ListReads (fun n => argList els n named) ks xs ∧
    ListReads (fun n => macroArgList els n named) ks xs

variable (els) in
/-- The text after an argument of a call or of a macro call. -/
def ArgsMore (named : Bool) (ks : List Spelling) (xs : List Expr) : Prop :=
  MoreReads (fun n => argList els n named) ks xs ∧
    MoreReads (fun n => macroArgList els n named) ks xs

theorem ArgsMore.nil (named : Bool) : ArgsMore els named [] [] :=
  ⟨MoreReads.nil _, MoreReads.nil _⟩

theorem ArgsRead.more {named : Bool} (h : ArgsRead els named ks xs) :
    ArgsMore els named ((.Comma, none) :: ks) xs := ⟨h.1.more, h.2.more⟩

theorem ArgsRead.positional (h : ExprReads els 0 o ks x) (ho : 0 < o) (hks : Formed ks)
    (hx : withLabel [] x = x) (hmore : ArgsMore els false km xm) :
    ArgsRead els false (ks ++ km) (x :: xm) := by
  have hcolon : ∀ rest, EndsArg (headKind rest) → headKind rest ≠ .Colon := by
    intro rest hends hk
    rw [hk] at hends
    exact absurd hends (by simp [EndsArg])
  refine ⟨?_, ?_⟩
  · refine ExprReads.argument (k := []) (g := id) (fun e => e) (fun _ => rfl) ?_ ?_ h ho
      hks.woven hmore.1
    · intro ts rest ds hts hends n
      exact argList_positional (hks.label ts rest ds hts (hcolon rest hends))
    · intro t₀ ts ds ht₀ _
      cases ht₀
      rfl
  · have hread : ListReads (fun n => macroArgList els n false) (ks ++ km)
        (withLabel [] x :: xm) := by
      refine ExprReads.argument (k := []) (g := id) (withLabel []) (bare_withLabel [])
        ?_ ?_ h ho hks.woven hmore.2
      · intro ts rest ds hts hends n
        refine macroArgList_positional (hks.label ts rest ds hts (hcolon rest hends)) ?_
        intro hquasi
        have hk : canStartExpr (headKind (ts ++ rest)) = true := hks.starts.headKind hts
        rw [show headKind (ts ++ rest) = .QuasiLiteral from hquasi] at hk
        exact absurd hk (by decide)
      · intro t₀ ts ds ht₀ _
        cases ht₀
        rfl
    rwa [hx] at hread

theorem ArgsRead.named (label : Str) (named : Bool) (h : ExprReads els 0 o ks x) (ho : 0 < o)
    (hks : Formed ks) (hmore : ArgsMore els true km xm) :
    ArgsRead els named ([(.Identifier, some label), (.Colon, none)] ++ ks ++ km)
      (withLabel label x :: xm) := by
  have hfront : ∀ {t₀ : List Token} {ts : List Token} (ds : List Diagnostic),
      Spells t₀ [(.Identifier, some label), (.Colon, none)] → ts ≠ [] →
      (⟨t₀ ++ ts, ds⟩ : Cursor).advance.advance = ⟨ts, ds⟩ ∧ Labelled ⟨t₀ ++ ts, ds⟩ ∧
        (⟨t₀ ++ ts, ds⟩ : Cursor).cur.text = label := by
    intro t₀ ts ds ht₀ hts
    obtain ⟨i, t₀, rfl, hi, ht₀⟩ := ht₀.cons
    obtain ⟨c, rfl, hc⟩ := ht₀.single
    refine ⟨?_, ⟨hi.1, hc.1⟩, hi.2 _ rfl⟩
    show (⟨c :: ts, ds⟩ : Cursor).advance = _
    exact Cursor.advance_of_ne hts
  have htext : WovenText ([(.Identifier, some label), (.Colon, none)] ++ ks) :=
    .cons (by simp) (.cons (by simp) hks.woven)
  refine ⟨?_, ?_⟩
  · refine ExprReads.argument (g := fun c => c.advance.advance) (withLabel label)
      (bare_withLabel label) ?_ ?_ h ho htext hmore.1
    · intro ts rest ds hts hends n
      obtain ⟨t₀, te, rfl, ht₀, hte⟩ := hts.append
      rw [append_assoc]
      obtain ⟨-, hlabelled, htext⟩ := hfront ds ht₀ (hks.starts.ne_nil (r := rest) hte)
      show argList els (n + 1) named _ = _
      rw [argList_named hlabelled, htext]
      rfl
    · intro t₀ ts ds ht₀ hts
      exact (hfront ds ht₀ hts).1
  · refine ExprReads.argument (g := fun c => c.advance.advance) (withLabel label)
      (bare_withLabel label) ?_ ?_ h ho htext hmore.2
    · intro ts rest ds hts hends n
      obtain ⟨t₀, te, rfl, ht₀, hte⟩ := hts.append
      rw [append_assoc]
      obtain ⟨hadvance, hlabelled, htext⟩ := hfront ds ht₀ (hks.starts.ne_nil (r := rest) hte)
      show macroArgList els (n + 1) named _ = _
      rw [macroArgList_named hlabelled, htext]
      · rfl
      · rw [hadvance]
        intro hquasi
        have hk : canStartExpr (headKind (te ++ rest)) = true := hks.starts.headKind hte
        rw [show headKind (te ++ rest) = .QuasiLiteral from hquasi] at hk
        exact absurd hk (by decide)
    · intro t₀ ts ds ht₀ hts
      exact (hfront ds ht₀ hts).1

/-! ### Calls -/

/-- The text between the parentheses of a call that `p` reads. -/
def ParensRead (p : Nat → Cursor → Option (List Expr × Cursor)) (ks : List Spelling)
    (xs : List Expr) : Prop :=
  ∀ l ts r rest ds, l.kind = .LParen → r.kind = .RParen → Spells ts ks → Woven rest →
    Clear (l :: (ts ++ r :: rest)) → rest ≠ [] →
    Woven (l :: (ts ++ r :: rest)) ∧
    ∃ es, es.map (bare.expr none) = xs ∧
      Settles (fun n => p n ⟨l :: (ts ++ r :: rest), ds⟩) (es, ⟨rest, ds⟩)

/-- `p` reads a parenthesis, a list with `q` unless it closes at once, and a parenthesis. -/
def Encloses (p q : Nat → Cursor → Option (List Expr × Cursor)) : Prop :=
  ∀ n c, p (n + 1) c =
    (if (c.expect .LParen "'('").kind = .RParen then some ([], c.expect .LParen "'('")
      else q n (c.expect .LParen "'('")) >>= fun args =>
    some (args.1, args.2.expect .RParen "')'")

theorem ParensRead.nil (hp : Encloses p q) : ParensRead p [] [] := by
  intro l ts r rest ds hl hr hts hwoven hclear hrest
  cases hts
  refine ⟨.token (by rw [hl]; decide) (.token (by rw [hr]; decide) hwoven), [], rfl,
    Settles.succ (q := fun _ => some ([], ⟨rest, ds⟩)) (Settles.pure _) fun n => ?_⟩
  have hopened : (⟨l :: ([] ++ r :: rest), ds⟩ : Cursor).expect .LParen "'('" =
      ⟨r :: rest, ds⟩ := Cursor.expect_of_kind hl (by simp)
  have hclosed : (⟨r :: rest, ds⟩ : Cursor).expect .RParen "')'" = ⟨rest, ds⟩ :=
    Cursor.expect_of_kind hr hrest
  rw [hp, hopened, if_pos (by exact hr)]
  show some _ = _
  rw [hclosed]

theorem ListReads.parens (hp : Encloses p q) (h : ListReads q ks xs)
    (hfirst : ∃ k tail, ks = k :: tail ∧ k.1 ≠ .RParen) : ParensRead p ks xs := by
  intro l ts r rest ds hl hr hts hwoven hclear hrest
  have hclosing : Woven (r :: rest) := .token (by rw [hr]; decide) hwoven
  obtain ⟨hlist, es, hes, hread⟩ := h ts (r :: rest) ds hts hclosing hclear.tail hr
  refine ⟨.token (by rw [hl]; decide) hlist, es, hes, ?_⟩
  have hopened : (⟨l :: (ts ++ r :: rest), ds⟩ : Cursor).expect .LParen "'('" =
      ⟨ts ++ r :: rest, ds⟩ := Cursor.expect_of_kind hl (by simp)
  have hclosed : (⟨r :: rest, ds⟩ : Cursor).expect .RParen "')'" = ⟨rest, ds⟩ :=
    Cursor.expect_of_kind hr hrest
  have hk : (⟨ts ++ r :: rest, ds⟩ : Cursor).kind ≠ .RParen := by
    obtain ⟨k, tail, rfl, hk⟩ := hfirst
    obtain ⟨t, ts, rfl, ht, -⟩ := hts.cons
    show t.kind ≠ .RParen
    rw [ht.1]
    exact hk
  refine Settles.succ (hread.bind (f := fun _ args => some (args.1, args.2.expect .RParen "')'"))
    ?_) fun n => ?_
  · rw [hclosed]
    exact Settles.pure _
  · rw [hp, hopened, if_neg hk]

variable (els) in
/-- The text between the parentheses of a call or of a macro call. -/
def CallReads (ks : List Spelling) (xs : List Expr) : Prop :=
  ParensRead (parseArgs els) ks xs ∧ ParensRead (parseMacroArgs els) ks xs

theorem CallReads.nil : CallReads els [] [] :=
  ⟨.nil (q := fun n => argList els n false) parseArgs_succ,
    .nil (q := fun n => macroArgList els n false) parseMacroArgs_succ⟩

theorem ArgsRead.call (h : ArgsRead els false ks xs)
    (hfirst : ∃ k tail, ks = k :: tail ∧ k.1 ≠ .RParen) : CallReads els ks xs :=
  ⟨h.1.parens parseArgs_succ hfirst, h.2.parens parseMacroArgs_succ hfirst⟩

theorem BaseReads.call (h : BaseReads els false ks x) (ha : CallReads els ka xa) :
    BaseReads els false (ks ++ (.LParen, none) :: (ka ++ [(.RParen, none)]))
      (callNode { kind := .Call } x [] xa) := by
  intro ts rest ds hts hwoven hclear hrest _
  obtain ⟨tb, ts, rfl, htb, hts⟩ := hts.append
  obtain ⟨l, ts, rfl, hl, hts⟩ := hts.cons
  obtain ⟨ta, ts, rfl, hta, hts⟩ := hts.append
  obtain ⟨r, rfl, hr⟩ := hts.single
  rw [append_assoc, cons_append, append_assoc, cons_append,
    nil_append] at hclear ⊢
  obtain ⟨hafter, es, hes, hargs⟩ := ha.1 l ta r rest ds hl.1 hr.1 hta hwoven hclear.drop hrest
  obtain ⟨e, he, hread⟩ := h tb _ ds htb hafter hclear (by simp) (fun h => absurd h (by decide))
  refine ⟨callNode { kind := .Call, span := e.info.span } e [] es, ?_,
    fun res hpost => hread res ?_⟩
  · rw [bare_callNode, he, hes]
    rfl
  · exact Settles.succ (hargs.bind (f := fun n args => parsePostfix els n
      (callNode { kind := .Call, span := e.info.span } e [] args.1) args.2) hpost)
      fun n => parsePostfix_call hl.1

theorem BaseReads.macroCall (h : BaseReads els pinned ks x) (hx : macroCallable x = true)
    (ha : CallReads els ka xa) :
    BaseReads els false (ks ++ (.Bang, none) :: (.LParen, none) :: (ka ++ [(.RParen, none)]))
      (callNode { kind := .Call, isMacroCall := true } x [] xa) := by
  intro ts rest ds hts hwoven hclear hrest _
  obtain ⟨tb, ts, rfl, htb, hts⟩ := hts.append
  obtain ⟨b, ts, rfl, hb, hts⟩ := hts.cons
  obtain ⟨l, ts, rfl, hl, hts⟩ := hts.cons
  obtain ⟨ta, ts, rfl, hta, hts⟩ := hts.append
  obtain ⟨r, rfl, hr⟩ := hts.single
  rw [append_assoc, cons_append, cons_append, append_assoc,
    cons_append, nil_append] at hclear ⊢
  have hbk : b.kind = .Bang := hb.1
  obtain ⟨hparens, es, hes, hargs⟩ :=
    ha.2 l ta r rest ds hl.1 hr.1 hta hwoven hclear.drop.tail hrest
  have hafter : Woven (b :: l :: (ta ++ r :: rest)) := .token (by rw [hbk]; decide) hparens
  obtain ⟨e, he, hread⟩ := h tb _ ds htb hafter hclear (by simp) (by
    intro _
    rw [headKind_cons, hbk]
    decide)
  let info : ExprInfo := { kind := .Call, span := e.info.span, isMacroCall := true }
  refine ⟨callNode info e [] es, ?_, fun res hpost => hread res ?_⟩
  · rw [bare_callNode, he, hes]
    rfl
  · refine Settles.succ (hargs.bind (f := fun n args =>
      parsePostfix els n (callNode info e [] args.1) args.2) hpost)
      fun n => parsePostfix_macro hbk hl.1 ?_
    rw [← macroCallable_bare, he]
    exact hx

/-! ### Type arguments -/

/-- The text of a type, and the type it reads as where a comma or `>` follows. -/
structure TypeText where
  spelled : List Spelling
  type : TypeRef
  starts : ∀ ts rest, Spells ts spelled →
    headKind (ts ++ rest) = .Identifier ∨ headKind (ts ++ rest) = .LParen
  closed : ∀ ts, Spells ts spelled → Closed ts
  reads : ∀ ts rest ds, Spells ts spelled → headKind rest = .Comma ∨ headKind rest = .Gt →
    ∃ t, bareType t = type ∧ Settles (fun n => parseType n ⟨ts ++ rest, ds⟩) (t, ⟨rest, ds⟩)

/-- The name of a type is the text of a type. -/
def TypeText.named (name : Str) : TypeText where
  spelled := [(.Identifier, some name)]
  type := .ofInfo { kind := .Named, name := name }
  starts ts rest hts := by
    obtain ⟨t, rfl, ht⟩ := hts.single
    exact Or.inl ht.1
  closed ts hts := by
    obtain ⟨t, rfl, ht⟩ := hts.single
    exact Closed.single (Or.inl ht.1)
  reads ts rest ds hts hrest := by
    obtain ⟨t, rfl, ht⟩ := hts.single
    have htk : t.kind = .Identifier := ht.1
    have htext : t.text = name := ht.2 _ rfl
    have hne : rest ≠ [] := by
      intro h
      subst h
      exact absurd hrest (by decide)
    have hkind : (⟨rest, ds⟩ : Cursor).kind = .Comma ∨ (⟨rest, ds⟩ : Cursor).kind = .Gt := hrest
    have hnot : ∀ k, k ≠ .Comma → k ≠ .Gt → (⟨rest, ds⟩ : Cursor).kind ≠ k := by
      intro k hcomma hgt hk
      rw [hk] at hkind
      rcases hkind with h | h
      · exact hcomma h
      · exact hgt h
    refine ⟨.ofInfo { kind := .Named, span := t.span, name := name }, rfl, 2, fun n hn => ?_⟩
    obtain ⟨n, rfl⟩ : ∃ k, n = k + 2 := ⟨n - 2, by omega⟩
    obtain ⟨len, hlen⟩ : ∃ len, rest.length = len + 1 :=
      ⟨rest.length - 1, (Nat.succ_pred (by simpa using hne)).symm⟩
    show parseType (n + 2) ⟨t :: rest, ds⟩ = _
    rw [parseType, parseTypePrimary]
    simp [htk, htext, Cursor.advance_of_ne hne, hlen, typePath, wrapNullable,
      hnot .Dot (by decide) (by decide), hnot .ColonColon (by decide) (by decide),
      hnot .Lt (by decide) (by decide), hnot .Question (by decide) (by decide),
      hnot .Pipe (by decide) (by decide)]
    rfl

/-- `T, U, ...`. -/
def typesSpelled (first : TypeText) : List TypeText → List Spelling
  | [] => first.spelled
  | t :: more => first.spelled ++ (.Comma, none) :: typesSpelled t more

theorem typeList_reads (more : List TypeText) : ∀ (first : TypeText) (ts rest : List Token)
    (ds : List Diagnostic), Spells ts (typesSpelled first more) → headKind rest = .Gt →
    Closed ts ∧ (headKind (ts ++ rest) = .Identifier ∨ headKind (ts ++ rest) = .LParen) ∧
    ∃ types, types.map bareType = (first :: more).map TypeText.type ∧
      Settles (fun n => typeList n ⟨ts ++ rest, ds⟩) (types, ⟨rest, ds⟩) := by
  induction more with
  | nil =>
    intro first ts rest ds hts hrest
    obtain ⟨t, ht, hread⟩ := first.reads ts rest ds hts (Or.inr hrest)
    refine ⟨first.closed ts hts, first.starts ts rest hts, [t], by simp [ht],
      Settles.succ (hread.bind (f := fun n t =>
        if t.2.kind = .Comma then
          typeList n t.2.advance >>= fun more => some (t.1 :: more.1, more.2)
        else some ([t.1], t.2)) ?_) fun n => ?_⟩
    · have hk : (⟨rest, ds⟩ : Cursor).kind ≠ .Comma := by
        show headKind rest ≠ .Comma
        rw [hrest]
        decide
      simp only [if_neg hk]
      exact Settles.pure _
    · rw [typeList]
      rfl
  | cons u us ih =>
    intro first ts rest ds hts hrest
    obtain ⟨tf, ts, rfl, htf, hts⟩ := hts.append
    obtain ⟨comma, tu, rfl, hcomma, htu⟩ := hts.cons
    have hck : comma.kind = .Comma := hcomma.1
    have hne : tu ++ rest ≠ [] := by
      intro h
      rw [(List.append_eq_nil_iff.mp h).2] at hrest
      exact absurd hrest (by decide)
    rw [append_assoc, cons_append]
    obtain ⟨hclosed, -, types, htypes, hmore⟩ := ih u tu rest ds htu hrest
    obtain ⟨t, ht, hread⟩ := first.reads tf (comma :: (tu ++ rest)) ds htf (Or.inl hck)
    have hcommas : Closed (comma :: tu) := (Closed.single (Or.inr hck)).append hclosed
    refine ⟨(first.closed tf htf).append hcommas, first.starts tf _ htf, t :: types, ?_,
      Settles.succ (hread.bind (f := fun n t =>
        if t.2.kind = .Comma then
          typeList n t.2.advance >>= fun more => some (t.1 :: more.1, more.2)
        else some ([t.1], t.2)) ?_) fun n => ?_⟩
    · rw [map_cons, ht, htypes]
      rfl
    · have hk : (⟨comma :: (tu ++ rest), ds⟩ : Cursor).kind = .Comma := hck
      simp only [if_pos hk, Cursor.advance_of_ne hne]
      exact hmore.bind (f := fun _ more => some (t :: more.1, more.2)) (Settles.pure _)
    · rw [typeList]
      rfl

/-- `::<T, U>`. -/
def targsSpelled (first : TypeText) (more : List TypeText) : List Spelling :=
  [(.ColonColon, none), (.Lt, none)] ++ (typesSpelled first more ++ [(.Gt, none)])

theorem targs_reads {first : TypeText} {more : List TypeText} {ts rest : List Token}
    {d : List Diagnostic} (hts : Spells ts (targsSpelled first more)) (hwoven : Woven rest)
    (hrest : rest ≠ []) :
    Woven (ts ++ rest) ∧ ∃ colons lt us types, ts ++ rest = colons :: lt :: us ∧
      colons.kind = .ColonColon ∧ lt.kind = .Lt ∧
      types.map bareType = (first :: more).map TypeText.type ∧
      Settles (fun n => parseExplicitTypeArgs n ⟨ts ++ rest, d⟩) (types, ⟨rest, d⟩) := by
  obtain ⟨front, back, rfl, hfront, hback⟩ := hts.append
  obtain ⟨colons, front, rfl, hcolons, hfront⟩ := hfront.cons
  obtain ⟨lt, rfl, hlt⟩ := hfront.single
  obtain ⟨body, gts, rfl, hbody, hgts⟩ := hback.append
  obtain ⟨gt, rfl, hgt⟩ := hgts.single
  have hgk : gt.kind = .Gt := hgt.1
  obtain ⟨hclosed, hfirst, types, htypes, hread⟩ :=
    typeList_reads more first body (gt :: rest) d hbody hgk
  have htext : [colons, lt] ++ (body ++ [gt]) ++ rest = colons :: lt :: (body ++ gt :: rest) := by
    simp
  rw [htext]
  refine ⟨.types hcolons.1 hlt.1 hgk hclosed hwoven, colons, lt, _, types, rfl, hcolons.1, hlt.1,
    htypes, ?_⟩
  have hnot : ¬ ((⟨body ++ gt :: rest, d⟩ : Cursor).kind = .Gt ∨
      (⟨body ++ gt :: rest, d⟩ : Cursor).kind = .GtGt) := by
    show ¬ (headKind (body ++ gt :: rest) = .Gt ∨ headKind (body ++ gt :: rest) = .GtGt)
    rcases hfirst with h | h <;> rw [h] <;> decide
  have hadvance : (⟨colons :: lt :: (body ++ gt :: rest), d⟩ : Cursor).advance.advance =
      ⟨body ++ gt :: rest, d⟩ := Cursor.advance_of_ne (by simp)
  have hgo : (fun n => parseExplicitTypeArgs n ⟨colons :: lt :: (body ++ gt :: rest), d⟩) =
      fun n => typeList n ⟨body ++ gt :: rest, d⟩ >>= fun args => some (args.1, args.2.expectGt) := by
    funext n
    unfold parseExplicitTypeArgs
    simp only [hadvance, if_neg hnot]
    rfl
  rw [hgo]
  refine hread.bind (f := fun _ args => some (args.1, args.2.expectGt)) ?_
  have hgt : (⟨gt :: rest, d⟩ : Cursor).expectGt = ⟨rest, d⟩ := by
    rw [Cursor.expectGt, if_pos (by exact hgk)]
    exact Cursor.advance_of_ne hrest
  rw [hgt]
  exact Settles.pure _

/-- Type arguments after a postfix form; a call does not follow. -/
theorem BaseReads.pin (first : TypeText) (more : List TypeText) (h : BaseReads els pinned ks x) :
    BaseReads els true (ks ++ targsSpelled first more)
      (withTypeArgs ((first :: more).map TypeText.type) x) := by
  intro ts rest ds hts hwoven hclear hrest hparen
  obtain ⟨tb, ta, rfl, htb, hta⟩ := hts.append
  obtain ⟨hafter, colons, lt, us, types, htext, hcolons, hlt, htypes, htargs⟩ :=
    targs_reads (d := ds) hta hwoven hrest
  rw [append_assoc] at hclear ⊢
  rw [htext] at hafter hclear htargs ⊢
  obtain ⟨e, he, hread⟩ := h tb _ ds htb hafter hclear (by simp) (by
    intro _
    rw [headKind_cons, hcolons]
    decide)
  refine ⟨withTypeArgs types e, ?_, fun res hpost => hread res ?_⟩
  · rw [bare_withTypeArgs, he, htypes]
  · have hk : (⟨rest, ds⟩ : Cursor).kind ≠ .LParen := hparen rfl
    refine Settles.succ (htargs.bind (f := fun n targs =>
      if targs.2.kind = .LParen then
        parseArgs els n targs.2 >>= fun args =>
        parsePostfix els n
          (callNode { kind := .Call, span := e.info.span } e targs.1 args.1) args.2
      else parsePostfix els n (withTypeArgs targs.1 e) targs.2) ?_)
      fun n => parsePostfix_types hcolons hlt
    simp only [if_neg hk]
    exact hpost

theorem BaseReads.pinnedCall (first : TypeText) (more : List TypeText)
    (h : BaseReads els pinned ks x) (ha : CallReads els ka xa) :
    BaseReads els false
      (ks ++ (targsSpelled first more ++ (.LParen, none) :: (ka ++ [(.RParen, none)])))
      (callNode { kind := .Call } x ((first :: more).map TypeText.type) xa) := by
  intro ts rest ds hts hwoven hclear hrest _
  obtain ⟨tb, ts, rfl, htb, hts⟩ := hts.append
  obtain ⟨tt, ts, rfl, htt, hts⟩ := hts.append
  obtain ⟨l, ts, rfl, hl, hts⟩ := hts.cons
  obtain ⟨ta, ts, rfl, hta, hts⟩ := hts.append
  obtain ⟨r, rfl, hr⟩ := hts.single
  have hshape : tb ++ (tt ++ l :: (ta ++ [r])) ++ rest = tb ++ (tt ++ l :: (ta ++ r :: rest)) := by
    simp
  rw [hshape] at hclear ⊢
  obtain ⟨hparens, es, hes, hargs⟩ :=
    ha.1 l ta r rest ds hl.1 hr.1 hta hwoven hclear.drop.drop hrest
  obtain ⟨hafter, colons, lt, us, types, htext, hcolons, hlt, htypes, htargs⟩ :=
    targs_reads (d := ds) htt hparens (by simp)
  rw [htext] at hafter hclear htargs ⊢
  obtain ⟨e, he, hread⟩ := h tb _ ds htb hafter hclear (by simp) (by
    intro _
    rw [headKind_cons, hcolons]
    decide)
  refine ⟨callNode { kind := .Call, span := e.info.span } e types es, ?_,
    fun res hpost => hread res ?_⟩
  · rw [bare_callNode, he, hes, htypes]
  · have hk : (⟨l :: (ta ++ r :: rest), ds⟩ : Cursor).kind = .LParen := hl.1
    refine Settles.succ (htargs.bind (f := fun n targs =>
      if targs.2.kind = .LParen then
        parseArgs els n targs.2 >>= fun args =>
        parsePostfix els n
          (callNode { kind := .Call, span := e.info.span } e targs.1 args.1) args.2
      else parsePostfix els n (withTypeArgs targs.1 e) targs.2) ?_)
      fun n => parsePostfix_types hcolons hlt
    have hbranch := hargs.bind (f := fun n args => parsePostfix els n
      (callNode { kind := .Call, span := e.info.span } e types args.1) args.2) hpost
    simpa only [if_pos hk] using hbranch

end

end Leviathan.Frontend.Pratt
