import Leviathan.Sema.Types

/-!
# Class shapes

`Resolver::buildShape`: the slots of a class are those of its bases, each in the
words of the base clause, and its own members; a slot whose name and text are taken
is merged with the one that is there (`mergeSlot`).

A class that takes a base's slots over loses none of them: for every slot of the
base there is one of the same name and of the text seen through the base clause
(`hasSlot_of_base`).  What `buildShape` reports (members that an interface asks
for, structs as bases) does not change the slots and is left out.
-/

namespace Leviathan.Sema

/-- A member of a class, as `slotOf` and `buildShape` read it.  `decl` tells
declarations apart. -/
structure Member (ι : Type) where
  decl : Nat
  name : Str
  callable : Bool := false
  params : List (Option (TypeRef ι)) := []
  type : Option (TypeRef ι) := none
  isCtor : Bool := false
  isGet : Bool := false
  isSet : Bool := false
  distinct : Bool := false
  isConst : Bool := false
  isReadonly : Bool := false
  isWeak : Bool := false

/-- The `canonical` of a slot: the text of a field's type, or the one of a method.  The
text of a method has an arrow `->`, which no type has in its text, so texts of
different kinds are never equal. -/
inductive SlotType where
  | field (text : Str)
  | method (text : Str)
deriving DecidableEq, Repr

/-- `struct Slot`. -/
structure Slot (ι : Type) where
  name : Str
  canonical : SlotType
  source : ι
  decl : Nat
  distinct : Bool := false
  isConst : Bool := false
  isReadonly : Bool := false
  isWeak : Bool := false
deriving DecidableEq

/-- `Slot::isMethod`. -/
def Slot.isMethod {ι : Type} (s : Slot ι) : Bool :=
  match s.canonical with
  | .method _ => true
  | .field _ => false

/-- The classes of a program with what their shapes are made of. -/
structure ClassTable (σ ι : Type) extends SemanticModel σ ι where
  symbols : List ι
  mem_symbols : ∀ sym, sym ∈ symbols
  symName : ι → Str
  isInterface : ι → Bool
  members : ι → List (Member ι)

/-- `slotOf`. -/
def slotOf {ι : Type} (member : Member ι) (source : ι) : Slot ι :=
  { name := member.name
    canonical :=
      if member.callable then
        .method ("(".toList ++ List.intercalate ", ".toList
            (member.params.map (fun p => (p.map TypeRef.canonical).getD "?".toList)) ++
          ")".toList ++ " -> ".toList ++ (member.type.map TypeRef.canonical).getD "void".toList)
      else .field ((member.type.map TypeRef.canonical).getD "?".toList)
    source := source
    decl := member.decl
    distinct := member.distinct
    isConst := member.isConst
    isReadonly := member.isReadonly
    isWeak := member.isWeak }

/-- A character of an identifier. -/
def isIdentChar (c : Char) : Bool := c.isAlphanum || c = '_'

/-- The loop of `substituteGenericToken`; `prev` is the character before the text, and
each round consumes one at least. -/
def substituteFrom (source target : Str) : Nat → Option Char → Str → Str
  | 0, _, _ => []
  | _, _, [] => []
  | n + 1, prev, c :: cs =>
    if source.isPrefixOf (c :: cs) && !prev.any isIdentChar &&
        !((c :: cs).drop source.length).head?.any isIdentChar then
      target ++ substituteFrom source target n source.getLast? ((c :: cs).drop source.length)
    else c :: substituteFrom source target n (some c) cs

/-- `substituteGenericToken`: a whole word replaced. -/
def substituteGenericToken (text source target : Str) : Str :=
  substituteFrom source target text.length none text

/-- One substitution after the other. -/
def substituteAll (subst : List (Str × Str)) : SlotType → SlotType
  | .field text =>
    .field (subst.foldl (fun text entry => substituteGenericToken text entry.1 entry.2) text)
  | .method text =>
    .method (subst.foldl (fun text entry => substituteGenericToken text entry.1 entry.2) text)

/-- `substituteSlotGenerics`. -/
def substituteSlotGenerics {ι : Type} (subst : List (Str × Str)) (s : Slot ι) : Slot ι :=
  { s with canonical := substituteAll subst s.canonical }

namespace ClassTable

variable {σ ι : Type} [DecidableEq ι] (p : ClassTable σ ι)

/-- The classes of a base clause. -/
def baseClasses (cls : ι) : List ι := (p.baseSymbols cls).filter (fun b => p.kind b = .Class)

/-- The loop of `classInheritsFrom`, with the rounds its guard allows; the top of the
stack comes first. -/
def inheritsLoop (base : ι) : Nat → List ι → Bool
  | 0, _ => false
  | _, [] => false
  | n + 1, cur :: stack => cur = base || inheritsLoop base n ((p.baseClasses cur).reverse ++ stack)

/-- `classInheritsFrom`. -/
def classInheritsFrom (sub base : ι) : Bool :=
  sub ≠ base && p.inheritsLoop base 99999 (p.baseClasses sub).reverse

/-- What `mergeSlot` makes of a slot and one of the same name and text. -/
def mergeInto (s incoming : Slot ι) : List (Slot ι) × List (Slot ι) :=
  if s.distinct || incoming.distinct then
    ([{ s with distinct := true }], [{ incoming with distinct := true }])
  else if s.isConst ≠ incoming.isConst || s.isReadonly ≠ incoming.isReadonly ||
      s.isWeak ≠ incoming.isWeak then ([s], [])
  else if s.source ≠ incoming.source && p.classInheritsFrom s.source incoming.source then ([s], [])
  else ([incoming], [])

/-- `mergeSlot`. -/
def mergeSlot : List (Slot ι) → Slot ι → List (Slot ι)
  | [], incoming => [incoming]
  | s :: slots, incoming =>
    if s.name = incoming.name ∧ s.canonical = incoming.canonical then
      (p.mergeInto s incoming).1 ++ slots ++ (p.mergeInto s incoming).2
    else s :: mergeSlot slots incoming

/-- The substitution of a base clause: the base's parameters by the texts of the
arguments. -/
def clauseSubst (base : ι) (generics : List (TypeRef ι)) : List (Str × Str) :=
  match p.decl base with
  | some d => (d.generics.map p.symName).zip (generics.map TypeRef.canonical)
  | none => []

/-- The slots a base clause brings in; a class takes over nothing from an interface. -/
def clauseSlots (shape : ι → List (Slot ι)) (cls : ι) (sc : σ) : TypeRef ι → List (Slot ι)
  | .named path name generics hygiene =>
    match p.resolvedSymbol sc (.named path name generics hygiene) with
    | some base =>
      if p.kind base = .Class ∧ ¬ (p.isInterface base = true ∧ p.isInterface cls = false) then
        (shape base).map (substituteSlotGenerics (p.clauseSubst base generics))
      else []
    | none => []
  | _ => []

/-- The members that are slots. -/
def ownSlots (cls : ι) : List (Slot ι) :=
  ((p.members cls).filter (fun m => !(m.isCtor || m.isGet || m.isSet))).map (slotOf · cls)

/-- The slots of a class, given those of its bases. -/
def shapeStep (shape : ι → List (Slot ι)) (cls : ι) : List (Slot ι) :=
  let inherited := match p.decl cls, p.scope cls with
    | some d, some sc => d.bases.flatMap (p.clauseSlots shape cls sc)
    | _, _ => []
  (inherited ++ p.ownSlots cls).foldl p.mergeSlot []

/-- `buildShape`, over at most `n` generations of bases. -/
def shapeIn : Nat → ι → List (Slot ι)
  | 0, cls => p.shapeStep (fun _ => []) cls
  | n + 1, cls => p.shapeStep (shapeIn n) cls

/-- `buildShape`: the slots of a class. -/
def shape (cls : ι) : List (Slot ι) := p.shapeIn (p.rank cls) cls

/-! ### Shapes are built from the shapes of the bases -/

/-- Only the shapes of the bases matter. -/
theorem shapeStep_congr {shape shape' : ι → List (Slot ι)} {cls : ι}
    (h : ∀ base ∈ p.baseSymbols cls, shape base = shape' base) :
    p.shapeStep shape cls = p.shapeStep shape' cls := by
  unfold shapeStep
  cases hdecl : p.decl cls with
  | none => rfl
  | some d =>
    cases hscope : p.scope cls with
    | none => rfl
    | some sc =>
      have hclauses : d.bases.flatMap (p.clauseSlots shape cls sc) =
          d.bases.flatMap (p.clauseSlots shape' cls sc) := by
        apply List.flatMap_congr
        intro base hbase
        cases base with
        | named path name generics hygiene =>
          cases hsym : p.resolvedSymbol sc (.named path name generics hygiene) with
          | none => simp only [clauseSlots, hsym]
          | some sym =>
            have hmem : sym ∈ p.baseSymbols cls := by
              unfold Scopes.baseSymbols
              rw [hdecl, hscope]
              exact List.mem_filterMap.mpr ⟨_, hbase, hsym⟩
            simp only [clauseSlots, hsym, h sym hmem]
        | _ => rfl
      dsimp only
      rw [hclauses]

/-- More generations than the rank of a class do not change its shape. -/
theorem shapeIn_eq {n m : Nat} {cls : ι} (hn : p.rank cls ≤ n) (hm : p.rank cls ≤ m) :
    p.shapeIn n cls = p.shapeIn m cls := by
  induction n generalizing m cls with
  | zero =>
    cases m with
    | zero => rfl
    | succ m =>
      refine p.shapeStep_congr fun base hbase => ?_
      have hlt := p.rank_lt cls base hbase
      omega
  | succ n ih =>
    cases m with
    | zero =>
      refine p.shapeStep_congr fun base hbase => ?_
      have hlt := p.rank_lt cls base hbase
      omega
    | succ m =>
      refine p.shapeStep_congr fun base hbase => ?_
      have hlt := p.rank_lt cls base hbase
      exact ih (by omega) (by omega)

/-- **Shapes.**  The shape of a class is made from the shapes of its bases. -/
theorem shape_eq (cls : ι) : p.shape cls = p.shapeStep p.shape cls := by
  have hsucc : p.shape cls = p.shapeIn (p.rank cls + 1) cls :=
    p.shapeIn_eq le_rfl (Nat.le_succ _)
  rw [hsucc]
  refine p.shapeStep_congr fun base hbase => ?_
  have hlt := p.rank_lt cls base hbase
  exact p.shapeIn_eq (by omega) le_rfl

/-! ### A slot is never lost -/

/-- The slots have one of this name and text. -/
def HasSlot (slots : List (Slot ι)) (name : Str) (canonical : SlotType) : Prop :=
  ∃ s ∈ slots, s.name = name ∧ s.canonical = canonical

/-- Merging a slot in keeps every name and text, and adds the slot's own. -/
theorem hasSlot_mergeSlot {slots : List (Slot ι)} {incoming : Slot ι} {name : Str} {canonical : SlotType}
    (h : HasSlot slots name canonical ∨ (incoming.name = name ∧ incoming.canonical = canonical)) :
    HasSlot (p.mergeSlot slots incoming) name canonical := by
  induction slots with
  | nil =>
    rcases h with ⟨_, hmem, -⟩ | h
    · cases hmem
    · exact ⟨incoming, List.mem_singleton_self _, h⟩
  | cons s slots ih =>
    rw [mergeSlot]
    split
    · next hsame =>
        -- what stands for the merged pair has their name and text
        have hfirst : ∃ t ∈ (p.mergeInto s incoming).1, t.name = s.name ∧
            t.canonical = s.canonical := by
          unfold mergeInto
          split_ifs
          · exact ⟨_, List.mem_singleton_self _, rfl, rfl⟩
          · exact ⟨_, List.mem_singleton_self _, rfl, rfl⟩
          · exact ⟨_, List.mem_singleton_self _, rfl, rfl⟩
          · exact ⟨_, List.mem_singleton_self _, hsame.1.symm, hsame.2.symm⟩
        obtain ⟨t, ht, hname, hcanonical⟩ := hfirst
        rcases h with ⟨u, hu, hkey⟩ | hkey
        · rcases List.mem_cons.mp hu with rfl | hu
          · exact ⟨t, by simp [ht], hname.trans hkey.1, hcanonical.trans hkey.2⟩
          · exact ⟨u, by simp [hu], hkey⟩
        · exact ⟨t, by simp [ht], (hname.trans hsame.1).trans hkey.1,
            (hcanonical.trans hsame.2).trans hkey.2⟩
    · rcases h with ⟨u, hu, hkey⟩ | hkey
      · rcases List.mem_cons.mp hu with rfl | hu
        · exact ⟨u, List.mem_cons_self, hkey⟩
        · obtain ⟨t, ht, htkey⟩ := ih (.inl ⟨u, hu, hkey⟩)
          exact ⟨t, List.mem_cons_of_mem _ ht, htkey⟩
      · obtain ⟨t, ht, htkey⟩ := ih (.inr hkey)
        exact ⟨t, List.mem_cons_of_mem _ ht, htkey⟩

/-- Merging a list of slots in keeps every name and text, and adds theirs. -/
theorem hasSlot_foldl {incoming slots : List (Slot ι)} {name : Str} {canonical : SlotType}
    (h : HasSlot slots name canonical ∨ HasSlot incoming name canonical) :
    HasSlot (incoming.foldl p.mergeSlot slots) name canonical := by
  induction incoming generalizing slots with
  | nil =>
    rcases h with h | ⟨_, hmem, -⟩
    · exact h
    · cases hmem
  | cons s incoming ih =>
    rw [List.foldl_cons]
    apply ih
    rcases h with h | ⟨t, ht, hkey⟩
    · exact .inl (p.hasSlot_mergeSlot (.inl h))
    · rcases List.mem_cons.mp ht with rfl | ht
      · exact .inl (p.hasSlot_mergeSlot (.inr hkey))
      · exact .inr ⟨t, ht, hkey⟩

/-- **Inheritance.**  A class that takes the slots of a base over has each of them, in
the words of its base clause. -/
theorem hasSlot_of_base {cls base : ι} {d : ClassDecl ι} {sc : σ} {path : List Str} {name : Str}
    {generics : List (TypeRef ι)} {hygiene : Option ι} (hdecl : p.decl cls = some d)
    (hscope : p.scope cls = some sc) (hbase : .named path name generics hygiene ∈ d.bases)
    (hresolved : p.resolvedSymbol sc (.named path name generics hygiene) = some base)
    (hkind : p.kind base = .Class)
    (htakes : ¬ (p.isInterface base = true ∧ p.isInterface cls = false))
    {slotName : Str} {canonical : SlotType} (h : HasSlot (p.shape base) slotName canonical) :
    HasSlot (p.shape cls) slotName (substituteAll (p.clauseSubst base generics) canonical) := by
  obtain ⟨s, hs, hname, hcanonical⟩ := h
  rw [shape_eq]
  unfold shapeStep
  rw [hdecl, hscope]
  refine p.hasSlot_foldl (.inr ⟨substituteSlotGenerics (p.clauseSubst base generics) s, ?_, hname, ?_⟩)
  · refine List.mem_append_left _ (List.mem_flatMap.mpr ⟨_, hbase, ?_⟩)
    simp only [clauseSlots, hresolved]
    rw [if_pos ⟨hkind, htakes⟩]
    exact List.mem_map_of_mem hs
  · rw [← hcanonical]
    rfl

end ClassTable

end Leviathan.Sema
