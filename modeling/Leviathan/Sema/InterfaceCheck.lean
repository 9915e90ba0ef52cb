import Leviathan.Sema.ClauseTexts

/-!
# Members an interface asks for

`paramsAssignable`, `returnAssignable` and the loop of `buildShape` that looks for the members its
interfaces ask for.  A member is found missing exactly if no slot of its name has its text and no
method of its name has fitting parameters and a return type that is the same, the same class or
one below it (`requirementError_eq_none_iff`).
-/

namespace Leviathan.Sema

open TextPart List

/-- A slot with what the check reads of its declaration. -/
structure FullSlot (σ ι : Type) where
  name : Str
  member : Member ι
  scope : σ
  texts : SlotTexts

namespace FullSlot

variable {σ ι : Type}

def isMethod (s : FullSlot σ ι) : Bool := s.member.callable

/-- `Slot::canonical`. -/
def canonical (s : FullSlot σ ι) : SlotType := ClassTable.slotType s.member s.texts

end FullSlot

namespace ClassTable

variable {σ ι : Type} [DecidableEq ι] (p : ClassTable σ ι)

mutual

/-- `namedTypeSameSymbol`, for references of two scopes. -/
def namedTypeSameSymbol (sa sb : σ) : TypeRef ι → TypeRef ι → Bool
  | .named pa na ga ha, .named pb nb gb hb =>
    match p.resolvedSymbol sa (.named pa na ga ha), p.resolvedSymbol sb (.named pb nb gb hb) with
    | some a, some b => a = b && namedTypesSameSymbol sa sb ga gb
    | _, _ => false
  | _, _ => false

def namedTypesSameSymbol (sa sb : σ) : List (TypeRef ι) → List (TypeRef ι) → Bool
  | [], [] => true
  | a :: as, b :: bs => namedTypeSameSymbol sa sb a b && namedTypesSameSymbol sa sb as bs
  | _, _ => false

end

/-- Two parameters of the same type, by text or by symbol. -/
def paramAssignable (sa sb : σ) : Option (TypeRef ι) × Option (TypeRef ι) → Bool
  | (some pt, some rt) => pt.canonical = rt.canonical || p.namedTypeSameSymbol sa sb pt rt
  | _ => false

/-- `paramsAssignable`. -/
def paramsAssignable (provided required : FullSlot σ ι) : Bool :=
  provided.texts.paramsCanon = required.texts.paramsCanon ||
    (provided.member.params.length = required.member.params.length &&
      (provided.member.params.zip required.member.params).all
        (p.paramAssignable provided.scope required.scope))

/-- A text without ` | None` at its end; nothing if it does not end so. -/
def withoutOptional (text : Str) : Option Str :=
  let suffix := " | None".toList
  if suffix.length < text.length ∧ suffix.isSuffixOf text then
    some (text.take (text.length - suffix.length))
  else none

/-- The walk of `returnAssignable` over the bases of a class, over at most `n` base clauses: some
base has the required text in the words of its clauses.  The source remembers what it has seen,
which cuts repetitions only. -/
def baseHasText : Nat → ι → List (Str × Str) → Str → Bool
  | 0, _, _, _ => false
  | n + 1, sym, subst, required =>
    let inWords (text : Str) : Str :=
      subst.foldl (fun text entry => substituteGenericToken text entry.1 entry.2) text
    match p.decl sym, p.scope sym with
    | some d, some sc => d.bases.any fun base =>
      inWords base.canonical = required ||
        match base with
        | .named path name generics hygiene =>
          match p.resolvedSymbol sc (.named path name generics hygiene) with
          | some b => p.kind b = .Class && baseHasText n b
              ((p.clauseSubst b generics).map fun entry => (entry.1, inWords entry.2)) required
          | none => false
        | _ => false
    | _, _ => false

/-- The return type is a class some base of which has the required text. -/
def covariantReturn (provided required : FullSlot σ ι) (sym : ι) (generics : List (TypeRef ι)) :
    Bool :=
  match withoutOptional required.texts.retCanon with
  | some text => p.baseHasText (p.rank sym + 1) sym (p.clauseSubst sym generics) text
  | none => (withoutOptional provided.texts.retCanon).isNone &&
      p.baseHasText (p.rank sym + 1) sym (p.clauseSubst sym generics) required.texts.retCanon

/-- `returnAssignable`. -/
def returnAssignable (provided required : FullSlot σ ι) : Bool :=
  provided.texts.retCanon = required.texts.retCanon ||
    (provided.isMethod && required.isMethod &&
      match provided.member.type with
      | some (.named path name generics hygiene) =>
        match p.resolvedSymbol provided.scope (.named path name generics hygiene) with
        | some sym => p.kind sym = .Class &&
            ((match required.member.type with
              | some t => p.namedTypeSameSymbol provided.scope required.scope
                  (.named path name generics hygiene) t
              | none => false) ||
            p.covariantReturn provided required sym generics)
        | none => false
      | _ => false)

/-- The slot is a method of the required name and parameters. -/
def isCandidate (req s : FullSlot σ ι) : Bool :=
  s.name = req.name && (s.isMethod && (req.isMethod && p.paramsAssignable s req))

/-- The slot is what is asked for. -/
def satisfies (req s : FullSlot σ ι) : Bool :=
  if p.isCandidate req s then p.returnAssignable s req
  else s.name = req.name && s.canonical = req.canonical

/-- The text of a slot in a message. -/
def slotText (s : FullSlot σ ι) : Str := s.name ++ " : ".toList ++ s.texts.canonical

/-- What `buildShape` reports about a member an interface asks for. -/
def requirementError (className : Str) (slots : List (FullSlot σ ι)) (req : FullSlot σ ι) :
    Option Str :=
  if slots.any (p.satisfies req) then none
  else
    let prelude_ := "'".toList ++ className ++ "' does not satisfy interface: ".toList
    match slots.find? (p.isCandidate req) with
    | some near => some (prelude_ ++ "'".toList ++ slotText near ++
        "' found, but return type '".toList ++ near.texts.retCanon ++
        "' is not assignable to required '".toList ++ req.texts.retCanon ++ "'".toList)
    | none => some (prelude_ ++ "missing '".toList ++ slotText req ++ "'".toList)

end ClassTable

/-! ### Equal texts -/

/-- There is no dash in the text. -/
def Dashless (ls : List TextPart) : Prop := mark '-' ∉ ls

theorem dashless_append {ls ks : List TextPart} (hls : Dashless ls) (hks : Dashless ks) :
    Dashless (ls ++ ks) := by
  intro h
  rcases List.mem_append.mp h with h | h
  · exact hls h
  · exact hks h

theorem dashless_intercalate {sep : List TextPart} {parts : List (List TextPart)} (hsep : Dashless sep)
    (hparts : ∀ ls ∈ parts, Dashless ls) : Dashless (List.intercalate sep parts) := by
  induction parts with
  | nil => exact not_mem_nil
  | cons x parts ih =>
    have hx := hparts x (mem_cons_self ..)
    cases parts with
    | nil => simpa [List.intercalate] using hx
    | cons y parts =>
      have hjoin : List.intercalate sep (x :: y :: parts) =
          x ++ (sep ++ List.intercalate sep (y :: parts)) := by
        simp [List.intercalate]
      rw [hjoin]
      exact dashless_append hx
        (dashless_append hsep (ih fun ls hls => hparts ls (mem_cons_of_mem x hls)))

theorem dashless_textParts {ι : Type} (t : TypeRef ι) : Dashless t.textParts := by
  have heach : ∀ ts : List (TypeRef ι), (∀ t ∈ ts, Dashless t.textParts) →
      ∀ ls ∈ TypeRef.textPartsEach ts, Dashless ls := by
    intro ts hts ls hls
    rw [TypeRef.textPartsEach_eq_map] at hls
    obtain ⟨t, ht, rfl⟩ := List.mem_map.mp hls
    exact hts t ht
  induction t using TypeRef.induction with
  | inferred => simp [TypeRef.textParts, Dashless]
  | named path name generics hygiene ih =>
    rw [TypeRef.textParts]
    have hhead : Dashless
        (path.flatMap (fun seg => [word seg, mark ':', mark ':']) ++ [word name]) := by
      simp [Dashless]
    refine dashless_append hhead ?_
    split
    · exact not_mem_nil
    · exact dashless_append (dashless_append (by simp [Dashless])
        (dashless_intercalate (by simp [Dashless]) (heach generics ih))) (by simp [Dashless])
  | union members ih =>
    exact dashless_intercalate (by simp [Dashless]) (heach members ih)
  | function params ret ihp ihr =>
    rw [TypeRef.textParts]
    exact dashless_append (dashless_append (dashless_append (by simp [Dashless])
      (dashless_intercalate (by simp [Dashless]) (heach params ihp))) (by simp [Dashless])) ihr

theorem dash_not_mem_spell {ls : List TextPart} (hdash : Dashless ls) (hls : Apart isIdentChar ls) :
    '-' ∉ spell ls := by
  induction ls with
  | nil => exact not_mem_nil
  | cons l ls ih =>
    have hrest : Dashless ls := fun h => hdash (mem_cons_of_mem l h)
    intro hmem
    rw [spell_cons] at hmem
    cases l with
    | mark c =>
      rcases List.mem_append.mp hmem with h | h
      · rw [← List.mem_singleton.mp h] at hdash
        exact hdash (mem_cons_self ..)
      · exact ih hrest hls.2 h
    | word w =>
      rcases List.mem_append.mp hmem with h | h
      · exact absurd (hls.1.2 '-' h) (by decide)
      · exact ih hrest hls.2.2 h

/-- The parameters of a method end at the first dash of its text. -/
theorem texts_split {ι : Type} {m m' : Member ι} (hm : m.Worded) (hm' : m'.Worded)
    (hcallable : m.callable = true) (hcallable' : m'.callable = true)
    (h : m.texts.canonical = m'.texts.canonical) : m.texts.retCanon = m'.texts.retCanon := by
  have hparams : ∀ {m : Member ι}, m.Worded → m.callable = true →
      '-' ∉ m.texts.paramsCanon ∧ m.texts.canonical =
        m.texts.paramsCanon ++ ' ' :: '-' :: '>' :: ' ' :: m.texts.retCanon := by
    intro m hm hcallable
    refine ⟨?_, ?_⟩
    · rw [Member.texts_eq]
      refine dash_not_mem_spell ?_ (Member.apart_paramsTextParts hm)
      unfold Member.paramsTextParts
      rw [if_pos hcallable]
      refine dashless_append (dashless_append (by simp [Dashless])
        (dashless_intercalate (by simp [Dashless]) fun ls hls => ?_)) (by simp [Dashless])
      obtain ⟨q, -, rfl⟩ := List.mem_map.mp hls
      cases q with
      | none => simp [Dashless]
      | some t => exact dashless_textParts t
    · unfold Member.texts
      rw [if_pos hcallable]
      simp
  obtain ⟨hdash, heq⟩ := hparams hm hcallable
  obtain ⟨hdash', heq'⟩ := hparams hm' hcallable'
  have hfront : ∀ (a b : Str), '-' ∉ a →
      (a ++ ' ' :: '-' :: b).takeWhile (· ≠ '-') = a ++ [' '] := by
    intro a b ha
    have hall : ∀ c ∈ a ++ [' '], (decide (c ≠ '-')) = true := by
      intro c hc
      rw [decide_eq_true_eq]
      intro hcd
      rw [hcd] at hc
      rcases List.mem_append.mp hc with hc | hc
      · exact ha hc
      · exact absurd (List.mem_singleton.mp hc) (by decide)
    rw [show a ++ ' ' :: '-' :: b = (a ++ [' ']) ++ '-' :: b by simp,
      takeWhile_append_of_pos hall]
    simp
  rw [heq, heq'] at h
  have hparamsEq : m.texts.paramsCanon = m'.texts.paramsCanon := by
    have htake := congrArg (List.takeWhile (· ≠ '-')) h
    rw [hfront _ _ hdash, hfront _ _ hdash'] at htake
    exact append_cancel_right htake
  rw [hparamsEq] at h
  have htail := append_cancel_left h
  simpa using htail

/-! ### What is reported -/

namespace ClassTable

variable {σ ι : Type} [DecidableEq ι] {p : ClassTable σ ι}

/-- The slot is written like a member with these types. -/
def SeenAs (s : FullSlot σ ι) (seen : Member ι) : Prop :=
  seen.Worded ∧ seen.callable = s.member.callable ∧ s.texts = seen.texts

theorem satisfies_iff {req s : FullSlot σ ι} {m m' : Member ι} (hs : SeenAs s m)
    (hreq : SeenAs req m') : p.satisfies req s = true ↔
      s.name = req.name ∧ (s.canonical = req.canonical ∨
        (s.isMethod = true ∧ req.isMethod = true ∧ p.paramsAssignable s req = true ∧
          p.returnAssignable s req = true)) := by
  unfold satisfies isCandidate
  by_cases hname : s.name = req.name
  · by_cases hmethods : s.isMethod = true ∧ req.isMethod = true ∧ p.paramsAssignable s req = true
    · obtain ⟨h₁, h₂, h₃⟩ := hmethods
      have hsame : s.canonical = req.canonical → p.returnAssignable s req = true := by
        intro hcanonical
        have hcallable : m.callable = true := hs.2.1.trans h₁
        have hcallable' : m'.callable = true := hreq.2.1.trans h₂
        have htext : s.texts.canonical = req.texts.canonical := by
          unfold FullSlot.canonical slotType at hcanonical
          rw [if_pos (show s.member.callable = true from h₁),
            if_pos (show req.member.callable = true from h₂)] at hcanonical
          exact SlotType.method.inj hcanonical
        have hret : s.texts.retCanon = req.texts.retCanon := by
          rw [hs.2.2, hreq.2.2] at htext ⊢
          exact texts_split hs.1 hreq.1 hcallable hcallable' htext
        unfold returnAssignable
        rw [hret]
        simp
      simp only [hname, h₁, h₂, h₃, decide_true, Bool.and_self, if_true, true_and]
      exact ⟨Or.inr, fun h => h.elim hsame id⟩
    · rw [if_neg]
      · simp only [hname, decide_true, Bool.true_and, decide_eq_true_eq, true_and]
        refine ⟨Or.inl, fun h => h.elim id fun h => ?_⟩
        exact absurd ⟨h.1, h.2.1, h.2.2.1⟩ hmethods
      · intro h
        simp only [hname, decide_true, Bool.true_and, Bool.and_eq_true] at h
        exact hmethods h
  · simp [hname]

/-- **Requirements.**  Nothing is reported exactly if some slot of the name has the text, or is a
method with fitting parameters and return type. -/
theorem requirementError_eq_none_iff {className : Str} {slots : List (FullSlot σ ι)}
    {req : FullSlot σ ι} (hslots : ∀ s ∈ slots, ∃ m, SeenAs s m) {m' : Member ι}
    (hreq : SeenAs req m') : p.requirementError className slots req = none ↔
      ∃ s ∈ slots, s.name = req.name ∧ (s.canonical = req.canonical ∨
        (s.isMethod = true ∧ req.isMethod = true ∧ p.paramsAssignable s req = true ∧
          p.returnAssignable s req = true)) := by
  have hany : slots.any (p.satisfies req) = true ↔
      ∃ s ∈ slots, s.name = req.name ∧ (s.canonical = req.canonical ∨
        (s.isMethod = true ∧ req.isMethod = true ∧ p.paramsAssignable s req = true ∧
          p.returnAssignable s req = true)) := by
    rw [any_eq_true]
    refine exists_congr fun s => and_congr_right fun hs => ?_
    obtain ⟨m, hm⟩ := hslots s hs
    exact satisfies_iff hm hreq
  rw [← hany, requirementError]
  split
  · next h => exact ⟨fun _ => h, fun _ => rfl⟩
  · next h =>
      refine ⟨fun hnone => ?_, fun htrue => absurd htrue h⟩
      split at hnone <;> cases hnone

/-- What a member becomes along base clauses, and what of it is asked for. -/
structure Simultaneous (p : ClassTable σ ι) (cls base : ι)
    (tables : List (List (Str × TypeRef ι))) (m seen : Member ι) : Prop where
  /-- The three texts are those of the member with all parameters replaced at once. -/
  texts : carried m.texts tables = seen.texts
  /-- A class that takes the slots of the base over has a slot of the name and this text. -/
  slot : p.TakesOver cls base → HasSlot (p.shape cls) m.name (slotType m seen.texts)
  /-- Where an interface asks for the member, a slot of its name and this text is enough. -/
  enough : ∀ className (slots : List (FullSlot σ ι)) (req : FullSlot σ ι), req.name = m.name →
    req.member = m → req.texts = carried m.texts tables →
    (∀ s ∈ slots, ∃ m', SeenAs s m') →
    (∃ s ∈ slots, s.name = m.name ∧ s.canonical = slotType m seen.texts) →
    p.requirementError className slots req = none
  /-- If the clauses leave the parameter types of the member as they are, only a method with the
  same parameter types and an assignable return type is enough otherwise. -/
  exactly : ∀ className (slots : List (FullSlot σ ι)) (req : FullSlot σ ι), req.name = m.name →
    req.member = m → req.texts = carried m.texts tables →
    (∀ s ∈ slots, ∃ m', SeenAs s m') → seen.texts.paramsCanon = m.texts.paramsCanon →
    (p.requirementError className slots req = none ↔
      ∃ s ∈ slots, s.name = m.name ∧ (s.canonical = slotType m seen.texts ∨
        (s.isMethod = true ∧ m.callable = true ∧ p.paramsAssignable s req = true ∧
          p.returnAssignable s req = true)))

end ClassTable

/-! ### A base clause that confuses nothing -/

/-- `T get();` of `Box<T>`. -/
def boxGet : Member BoxSymbol :=
  { decl := 0, name := "get".toList, callable := true, type := some (.named [] "T".toList [] none) }

/-- `Box<int>`. -/
def intArgument : List (TypeRef BoxSymbol) := [.named [] "int".toList [] none]

theorem isWord_of_all {w : Str} (h : w.isEmpty = false ∧ w.all isIdentChar = true) :
    IsWord isIdentChar w := by
  refine ⟨fun hw => ?_, List.all_eq_true.mp h.2⟩
  rw [hw] at h
  exact absurd h.1 (by decide)

theorem boxGet_types {t : TypeRef BoxSymbol} (ht : t ∈ boxGet.types) :
    t = .named [] "T".toList [] none := by
  rcases List.mem_append.mp ht with h | h
  · cases h
  · exact List.mem_singleton.mp h

theorem boxes_untangled : Untangled (boxes.paramNames .box) boxGet []
    (boxes.clauseTable .box intArgument) where
  later := ⟨fun _ _ => rfl, trivial⟩
  bare := by
    refine ⟨fun t ht => ?_, by decide⟩
    obtain ⟨u, hu, rfl⟩ := Member.mem_types_fill ht
    rw [boxGet_types hu]
    exact Or.inl ⟨rfl, rfl⟩
  own := by
    intro t ht n hn hnot
    rw [boxGet_types ht] at hn
    rw [List.mem_singleton.mp hn] at hnot
    exact absurd (mem_cons_self ..) hnot

theorem intBox_clause : boxes.Clause .intBox .box intArgument :=
  ⟨_, _, _, _, _, rfl, rfl, mem_singleton_self _, by decide⟩

theorem boxGet_worded : boxGet.Worded := by
  intro t ht
  rw [boxGet_types ht]
  exact ⟨fun _ h => absurd h not_mem_nil, isWord_of_all (by decide), trivial⟩

theorem boxes_words : ∀ n ∈ boxes.paramNames .box, IsWord isIdentChar n := by
  intro n hn
  rw [List.mem_singleton.mp hn]
  exact isWord_of_all (by decide)

theorem boxes_table : WordedTable (boxes.clauseTable .box intArgument) := by
  intro entry hentry
  rw [List.mem_singleton.mp hentry]
  exact ⟨isWord_of_all (by decide),
    ⟨fun _ h => absurd h not_mem_nil, isWord_of_all (by decide), trivial⟩⟩

/-- The symbols of a small program. -/
inductive PairSide where
  | pair | swap | pairA | pairB | swapA | swapB
deriving DecidableEq

/-- The scopes of the program. -/
inductive PairPlace where
  | outside | inPair | inSwap
deriving DecidableEq

/-- `class Pair<A, B> { A first(); }  class Swap<A, B> : Pair<B, A> { }`. -/
def swaps : ClassTable PairPlace PairSide where
  kind
    | .pair => .Class
    | .swap => .Class
    | _ => .TypeParam
  decl
    | .pair => some { generics := [.pairA, .pairB] }
    | .swap => some {
        generics := [.swapA, .swapB]
        bases := [.named [] "Pair".toList
          [.named [] "B".toList [] none, .named [] "A".toList [] none] none] }
    | _ => none
  scope
    | .pair => some .inPair
    | .swap => some .inSwap
    | _ => none
  enclosing
    | .outside => [.outside]
    | sc => [sc, .outside]
  names sc name :=
    match sc with
    | .outside =>
      if name = "Pair".toList then [.pair]
      else if name = "Swap".toList then [.swap]
      else []
    | .inPair => if name = "A".toList then [.pairA] else if name = "B".toList then [.pairB] else []
    | .inSwap => if name = "A".toList then [.swapA] else if name = "B".toList then [.swapB] else []
  rank
    | .swap => 1
    | _ => 0
  rank_lt := by
    intro cls
    cases cls <;> decide
  symbols := [.pair, .swap, .pairA, .pairB, .swapA, .swapB]
  mem_symbols := by
    intro sym
    cases sym <;> decide
  symName
    | .pair => "Pair".toList
    | .swap => "Swap".toList
    | .pairA => "A".toList
    | .pairB => "B".toList
    | .swapA => "A".toList
    | .swapB => "B".toList
  isInterface _ := false
  members
    | .pair => [{ decl := 0, name := "first".toList, callable := true,
                  type := some (.named [] "A".toList [] none) }]
    | _ => []

/-- `A first();` of `Pair<A, B>`. -/
def pairFirst : Member PairSide :=
  { decl := 0, name := "first".toList, callable := true, type := some (.named [] "A".toList [] none) }

/-- `Pair<B, A>`. -/
def swapped : List (TypeRef PairSide) := [.named [] "B".toList [] none, .named [] "A".toList [] none]

end Leviathan.Sema
