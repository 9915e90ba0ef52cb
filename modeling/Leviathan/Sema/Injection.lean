import Leviathan.Sema.Generics
import Leviathan.Sema.Meaning

/-!
# Injection

`bind T => factory;` registers a factory in the scope it is written in, under the canonical text
of its type (`fillBinds`).  `use NS::T;` activates the factory that `NS` exports for `T`, under
the local name of the `use` (`pushLexicalScope`).  A parameter that no argument fills, and
`inject T`, ask for the text of their type, from the inside out (`lookupBind`).

The factories are meant for types and found by texts.  `provides_iff` says when the one that is
found is the right one: in the scopes up to the first with the text, a factory has the text
exactly if it is for the type.
-/

namespace Leviathan.Sema

open List

/-! ### Scopes with factories -/

/-- A factory bind, `bind T => …`, with the scope that its type is resolved in. -/
structure Bind (σ ι β : Type) where
  type : TypeRef ι
  scope : σ
  stmt : β

/-- `use NS::T (as name)`; `resolved` is `useResolvedNs` with the class that the path leads to. -/
structure Use (ι : Type) where
  name : Str
  resolved : Option (ι × ι)

/-- The direct children of a block, a namespace body or the program: its factory binds and its
selective imports. -/
structure Block (σ ι β : Type) where
  binds : List (Bind σ ι β) := []
  uses : List (Use ι) := []

/-- `Scope::binds`, and `activated` of a frame. -/
abbrev BindTable (σ ι β : Type) := List (Str × Bind σ ι β)

/-- The entry of a key. -/
def BindTable.at {σ ι β : Type} (t : BindTable σ ι β) (key : Str) : Option (Bind σ ι β) :=
  (t.find? fun e => e.1 = key).map Prod.snd

/-- `LexicalFrame`. -/
structure Frame (σ ι β : Type) where
  textual : BindTable σ ι β
  activated : BindTable σ ι β

/-- The key of a bind: the canonical text of its type, or its bare name. -/
def Bind.key {σ ι β : Type} (b : Bind σ ι β) : Str :=
  if b.type.canonical = [] then
    match b.type with
    | .named _ name _ _ => name
    | _ => []
  else b.type.canonical

/-- The symbols of a program, with the factory binds at the top level of its namespaces in their
order. -/
structure Wiring (σ ι β : Type) where
  scopes : Scopes σ ι
  symbolName : ι → Str
  isValueType : ι → Bool
  exports : ι → List (Bind σ ι β)

/-- `fillBinds`: every key once. -/
def fillBinds {σ ι β : Type} (table : BindTable σ ι β) :
    List (Bind σ ι β) → Except Str (BindTable σ ι β)
  | [] => .ok table
  | b :: bs =>
    match table.at b.key with
    | none => fillBinds (table ++ [(b.key, b)]) bs
    | some _ => .error ("duplicate binding for '".toList ++ b.key ++ "' in this scope".toList)

namespace Wiring

variable {σ ι β : Type} (w : Wiring σ ι β)

/-- The type of a bind. -/
def typeOf (b : Bind σ ι β) : Ty ι := fromTypeRef w.scopes b.scope b.type

/-- `indexNamespaceBinds`: the first bind of a namespace with a key. -/
def namespaceBind (ns : ι) (key : Str) : Option (Bind σ ι β) :=
  (w.exports ns).find? fun b => b.key = key

/-- The bind that a `use` activates: the one its namespace has under the name of the class. -/
def activates (u : Use ι) : Option (Bind σ ι β) :=
  u.resolved.bind fun r => w.namespaceBind r.1 (w.symbolName r.2)

/-- The second loop of `pushLexicalScope`. -/
def activate (textual : BindTable σ ι β) (activated : BindTable σ ι β) :
    List (Use ι) → BindTable σ ι β
  | [] => activated
  | u :: us =>
    if (textual.at u.name).isSome || (activated.at u.name).isSome then
      activate textual activated us
    else
      match w.activates u with
      | none => activate textual activated us
      | some b => activate textual (activated ++ [(u.name, b)]) us

/-- The first loop of `pushLexicalScope`: no bind is for a value type. -/
def checkBind (b : Bind σ ι β) : Except Str Unit :=
  match (w.typeOf b).sym with
  | some sym =>
    if w.isValueType sym then
      .error ("cannot 'bind' the value type '".toList ++ (w.typeOf b).canonical ++
        ("' (a struct/primitive): dependency injection cannot carry a value " ++
          "through — pass it as an explicit argument instead").toList)
    else .ok ()
  | none => .ok ()

/-- `fillBinds` and `pushLexicalScope` for one scope. -/
def frame (o : Block σ ι β) : Except Str (Frame σ ι β) := do
  let textual ← fillBinds [] o.binds
  let _ ← o.binds.forM w.checkBind
  .ok { textual := textual, activated := w.activate textual [] o.uses }

end Wiring

/-- What one frame has under a key. -/
def Frame.bind {σ ι β : Type} (f : Frame σ ι β) (key : Str) : Option (Bind σ ι β) :=
  match f.textual.at key with
  | some b => some b
  | none => f.activated.at key

/-- `lookupBind`; the innermost frame comes first. -/
def lookupBind {σ ι β : Type} (frames : List (Frame σ ι β)) (key : Str) : Option (Bind σ ι β) :=
  frames.findSome? (Frame.bind · key)

/-! ### Requests -/

/-- Who asks: a parameter without an argument, of the type the call gives it, or `inject T`. -/
inductive Request (σ ι : Type) where
  | parameter (type : Ty ι)
  | inject (type : TypeRef ι) (scope : σ)

namespace Request

variable {σ ι β : Type}

/-- The text that is asked for. -/
def key : Request σ ι → Str
  | parameter type => type.canonical
  | inject type _ => type.canonical

/-- The type that is asked for. -/
def type (w : Wiring σ ι β) : Request σ ι → Ty ι
  | parameter type => type
  | inject type scope => fromTypeRef w.scopes scope type

/-- The factory that `pickInjecting` and `typeOfInner` take. -/
def provided (r : Request σ ι) (frames : List (Frame σ ι β)) : Option (Bind σ ι β) :=
  if r.key = [] then none else lookupBind frames r.key

end Request

/-! ### The right factory -/

mutual

/-- The alternatives of a type, by symbols. -/
def Ty.meaning {ι : Type} : Ty ι → Meaning ι
  | .class_ sym _ args => [.inst sym (Ty.meanings args)]
  | .union _ members => (Ty.meanings members).flatten
  | .primitive canonical => [.other canonical]
  | .typeValue _ canonical => [.other canonical]
  | .funcRef canonical _ => [.other canonical]
  | .unknown => [.other []]
  | .error => [.other []]

def Ty.meanings {ι : Type} : List (Ty ι) → List (Meaning ι)
  | [] => []
  | t :: ts => Ty.meaning t :: Ty.meanings ts

end

namespace Wiring

variable {σ ι β : Type} (w : Wiring σ ι β) (type : Ty ι)

/-- A bind is for a type: it is the same class with the same arguments, however either is
spelled. -/
def For (b : Bind σ ι β) : Prop := SameType type.meaning (w.typeOf b).meaning

/-- A bind that some `use` of a scope stands for: its namespace exports it, for the class that is
imported. -/
def Imported (o : Block σ ι β) (b : Bind σ ι β) : Prop :=
  ∃ u ∈ o.uses, ∃ ns cls, u.resolved = some (ns, cls) ∧ b ∈ w.exports ns ∧
    (w.typeOf b).sym = some cls

/-- No factory of a scope is for a type. -/
def NoneFor (o : Block σ ι β) : Prop :=
  (∀ b ∈ o.binds, ¬w.For type b) ∧ ∀ b, w.Imported o b → ¬w.For type b

/-- A scope has a text: a bind with the key, or a `use` of that name that activates one. -/
def HasText (key : Str) (o : Block σ ι β) : Prop :=
  (∃ b ∈ o.binds, b.key = key) ∨ ∃ u ∈ o.uses, u.name = key ∧ (w.activates u).isSome

/-- A factory that a scope has under a text is its only one for a type: of the textual ones if it
is textual itself, else of all. -/
def TheOneFor (key : Str) (o : Block σ ι β) (b : Bind σ ι β) : Prop :=
  (b ∈ o.binds ∧ b.key = key ∧ ∀ b' ∈ o.binds, w.For type b' ↔ b' = b) ∨
    ((∀ b' ∈ o.binds, b'.key ≠ key ∧ ¬w.For type b') ∧ w.Imported o b ∧ w.For type b ∧
      ∀ b', w.Imported o b' → w.For type b' → b' = b)

/-- A text leads to a scope, past the inner ones. -/
def LeadsTo (key : Str) (opens inner : List (Block σ ι β)) (o : Block σ ι β) : Prop :=
  ∃ outer, opens = inner ++ o :: outer ∧ (∀ i ∈ inner, ¬w.HasText key i) ∧ w.HasText key o

/-- The right factory: no scope inside has one for the type, and it is the one of its scope. -/
def Provides (key : Str) (opens : List (Block σ ι β)) (b : Bind σ ι β) : Prop :=
  ∃ inner o, w.LeadsTo key opens inner o ∧ (∀ i ∈ inner, w.NoneFor type i) ∧
    w.TheOneFor type key o b

/-! ### The condition -/

/-- What the `use` statements of a scope have under a text. -/
def underName (key : Str) (o : Block σ ι β) : Option (Bind σ ι β) :=
  (o.uses.filter (·.name = key)).findSome? w.activates

/-- In a scope, the factories for the type are those with the text. -/
structure Alike (key : Str) (o : Block σ ι β) : Prop where
  /-- A bind has the text if and only if it is for the type. -/
  textual : ∀ b ∈ o.binds, w.For type b ↔ b.key = key
  /-- Unless a bind has it, the `use` statements have the imported one for the type under the
  text, and no other. -/
  imported : (∀ b ∈ o.binds, b.key ≠ key) →
    ∀ b, w.Imported o b ∧ w.For type b ↔ w.underName key o = some b

/-- Up to the first scope with the text, texts and types go together. -/
def SpelledAlike (key : Str) (opens : List (Block σ ι β)) : Prop :=
  ∀ inner o, w.LeadsTo key opens inner o → ∀ i ∈ inner ++ [o], w.Alike type key i

end Wiring

/-! ### Tables -/

section
variable {σ ι β : Type}

theorem BindTable.at_append (t t' : BindTable σ ι β) (key : Str) :
    BindTable.at (t ++ t') key = (t.at key).or (BindTable.at t' key) := by
  unfold BindTable.at
  rw [find?_append]
  cases t.find? fun e => e.1 = key <;> simp

theorem BindTable.at_singleton (k key : Str) (b : Bind σ ι β) :
    BindTable.at [(k, b)] key = if k = key then some b else none := by
  unfold BindTable.at
  by_cases h : k = key <;> simp [h]

/-- The table of a scope has its binds, each under a key of its own. -/
theorem fillBinds_eq_ok {bs : List (Bind σ ι β)} : ∀ {table t : BindTable σ ι β},
    fillBinds table bs = .ok t →
      t = table ++ bs.map (fun b => (b.key, b)) ∧ (bs.map Bind.key).Nodup ∧
        ∀ b ∈ bs, table.at b.key = none := by
  induction bs with
  | nil =>
    intro table t h
    obtain rfl := Except.ok.inj h
    exact ⟨by simp, .nil, nofun⟩
  | cons b bs ih =>
    intro table t h
    unfold fillBinds at h
    split at h
    · next hnone =>
        obtain ⟨rfl, hnodup, hnew⟩ := ih h
        have hkeys : ∀ b' ∈ bs, table.at b'.key = none ∧ b.key ≠ b'.key := by
          intro b' hb'
          have hat := hnew b' hb'
          rw [BindTable.at_append, BindTable.at_singleton, Option.or_eq_none_iff] at hat
          refine ⟨hat.1, fun he => ?_⟩
          rw [if_pos he] at hat
          cases hat.2
        refine ⟨by simp, ?_, ?_⟩
        · rw [map_cons, nodup_cons]
          refine ⟨fun hmem => ?_, hnodup⟩
          obtain ⟨b', hb', he⟩ := List.mem_map.mp hmem
          exact (hkeys b' hb').2 he.symm
        · intro b' hb'
          rcases List.mem_cons.mp hb' with rfl | hb'
          · exact hnone
          · exact (hkeys b' hb').1
    · cases h

/-- A key of a scope's table is the key of one bind. -/
theorem at_fillBinds {bs : List (Bind σ ι β)} {t : BindTable σ ι β} (h : fillBinds [] bs = .ok t)
    (key : Str) : t.at key = bs.find? fun b => b.key = key := by
  obtain ⟨rfl, -, -⟩ := fillBinds_eq_ok h
  unfold BindTable.at
  rw [nil_append, find?_map, Option.map_map]
  exact congrFun Option.map_id _

/-- Binds of one scope with one key are one. -/
theorem eq_of_key_eq {bs : List (Bind σ ι β)} {t : BindTable σ ι β} (h : fillBinds [] bs = .ok t)
    {b b' : Bind σ ι β} (hb : b ∈ bs) (hb' : b' ∈ bs) (hkey : b.key = b'.key) : b = b' :=
  inj_on_of_nodup_map (fillBinds_eq_ok h).2.1 hb hb' hkey

variable {w : Wiring σ ι β}

/-- What a frame has activated under a key that no bind has. -/
theorem at_activate {textual : BindTable σ ι β} {key : Str} (hkey : textual.at key = none)
    (us : List (Use ι)) : ∀ activated : BindTable σ ι β,
      (w.activate textual activated us).at key =
        (activated.at key).or ((us.filter (·.name = key)).findSome? w.activates) := by
  induction us with
  | nil => intro activated; simp [Wiring.activate]
  | cons u us ih =>
    intro activated
    unfold Wiring.activate
    by_cases hname : u.name = key
    · rw [hname, hkey, filter_cons_of_pos (by simpa using hname), findSome?_cons]
      cases hat : activated.at key with
      | some b => simp [ih, hat]
      | none =>
        cases hact : w.activates u with
        | none => simp [ih, hat]
        | some b => simp [ih, hat, BindTable.at_append, BindTable.at_singleton]
    · rw [filter_cons_of_neg (by simpa using hname)]
      split
      · exact ih activated
      · split
        · exact ih activated
        · rw [ih, BindTable.at_append, BindTable.at_singleton, if_neg hname, Option.or_none]

/-- What a scope has under a key. -/
theorem frame_bind {o : Block σ ι β} {f : Frame σ ι β} (hf : w.frame o = .ok f) (key : Str) :
    f.bind key = (o.binds.find? fun b => b.key = key).or (w.underName key o) := by
  obtain ⟨textual, htextual, hf⟩ := bind_eq_ok.mp hf
  obtain ⟨_, -, hf⟩ := bind_eq_ok.mp hf
  obtain rfl := Except.ok.inj hf
  have hat := at_fillBinds htextual key
  unfold Frame.bind
  rw [← hat]
  cases hkey : textual.at key with
  | some b => rfl
  | none => exact at_activate hkey o.uses []

theorem frame_keys {o : Block σ ι β} {f : Frame σ ι β} (hf : w.frame o = .ok f)
    {b b' : Bind σ ι β} (hb : b ∈ o.binds) (hb' : b' ∈ o.binds) (hkey : b.key = b'.key) :
    b = b' := by
  obtain ⟨_, htextual, _⟩ := bind_eq_ok.mp hf
  exact eq_of_key_eq htextual hb hb' hkey

/-! ### Found by its text, and right -/

variable {type : Ty ι} {key : Str} {o : Block σ ι β} {f : Frame σ ι β}

theorem bind_eq_none_iff (hf : w.frame o = .ok f) : f.bind key = none ↔ ¬w.HasText key o := by
  rw [frame_bind hf, Option.or_eq_none_iff, Wiring.underName, find?_eq_none,
    findSome?_eq_none_iff]
  unfold Wiring.HasText
  simp only [mem_filter, decide_eq_true_eq, not_or, not_exists, not_and, and_imp,
    Bool.not_eq_true, Option.isSome_eq_false_iff, Option.isNone_iff_eq_none]

theorem underName_eq_none (h : ¬w.HasText key o) : w.underName key o = none := by
  rw [Wiring.underName, findSome?_eq_none_iff]
  intro u hu
  obtain ⟨hu, hname⟩ := List.mem_filter.mp hu
  by_contra hsome
  exact h (.inr ⟨u, hu, by simpa using hname, Option.isSome_iff_ne_none.mpr hsome⟩)

/-- A scope without the text. -/
theorem noneFor_iff_alike (h : ¬w.HasText key o) : w.NoneFor type o ↔ w.Alike type key o := by
  have hkey : ∀ b ∈ o.binds, b.key ≠ key := fun b hb he => h (.inl ⟨b, hb, he⟩)
  have hnone := underName_eq_none h
  constructor
  · rintro ⟨htextual, himported⟩
    refine ⟨fun b hb => ⟨fun hfor => absurd hfor (htextual b hb), fun he => ?_⟩, fun _ b => ?_⟩
    · exact absurd he (hkey b hb)
    · rw [hnone]
      exact ⟨fun ⟨hb, hfor⟩ => absurd hfor (himported b hb), nofun⟩
  · rintro ⟨htextual, himported⟩
    refine ⟨fun b hb hfor => hkey b hb ((htextual b hb).mp hfor), fun b hb hfor => ?_⟩
    have hunder := (himported hkey b).mp ⟨hb, hfor⟩
    rw [hnone] at hunder
    cases hunder

/-- The scope that the text leads to. -/
theorem theOneFor_iff_alike (hf : w.frame o = .ok f) {b : Bind σ ι β} (hb : f.bind key = some b) :
    w.TheOneFor type key o b ↔ w.Alike type key o := by
  rw [frame_bind hf] at hb
  cases hfind : o.binds.find? fun b => b.key = key with
  | some first =>
    rw [hfind] at hb
    obtain rfl := Option.some.inj hb
    have hmem := mem_of_find?_eq_some hfind
    have hkey : first.key = key := by simpa using find?_some hfind
    constructor
    · rintro (⟨-, -, hone⟩ | ⟨hno, -⟩)
      · refine ⟨fun b' hb' => ?_, fun hno => absurd hkey (hno first hmem)⟩
        rw [hone b' hb']
        exact ⟨fun he => he ▸ hkey, fun he => frame_keys hf hb' hmem (he.trans hkey.symm)⟩
      · exact absurd hkey (hno first hmem).1
    · rintro ⟨htextual, -⟩
      refine .inl ⟨hmem, hkey, fun b' hb' => ?_⟩
      rw [htextual b' hb']
      exact ⟨fun he => frame_keys hf hb' hmem (he.trans hkey.symm), fun he => he ▸ hkey⟩
  | none =>
    rw [hfind] at hb
    have hunder : w.underName key o = some b := hb
    have hno : ∀ b' ∈ o.binds, b'.key ≠ key := by simpa using hfind
    constructor
    · rintro (⟨hmem, hkey, -⟩ | ⟨htextual, himported, hfor, hone⟩)
      · exact absurd hkey (hno b hmem)
      · refine ⟨fun b' hb' => ?_, fun _ b' => ?_⟩
        · exact ⟨fun h => absurd h (htextual b' hb').2, fun h => absurd h (hno b' hb')⟩
        · rw [hunder]
          constructor
          · rintro ⟨hb', hfor'⟩
            rw [hone b' hb' hfor']
          · intro he
            obtain rfl := Option.some.inj he
            exact ⟨himported, hfor⟩
    · rintro ⟨htextual, himported⟩
      have himported := himported hno
      obtain ⟨hmem, hfor⟩ := (himported b).mpr hunder
      refine .inr ⟨fun b' hb' => ⟨hno b' hb', fun h => ?_⟩, hmem, hfor, fun b' hb' hfor' => ?_⟩
      · exact hno b' hb' ((htextual b' hb').mp h)
      · have hsame := (himported b').mp ⟨hb', hfor'⟩
        rw [hunder] at hsame
        exact (Option.some.inj hsame).symm

/-- A text leads to one scope only. -/
theorem leadsTo_unique {opens inner inner' : List (Block σ ι β)} {o o' : Block σ ι β}
    (h : w.LeadsTo key opens inner o) (h' : w.LeadsTo key opens inner' o') :
    inner = inner' ∧ o = o' := by
  obtain ⟨outer, rfl, hinner, ho⟩ := h
  obtain ⟨outer', heq, hinner', ho'⟩ := h'
  induction inner generalizing inner' with
  | nil =>
    cases inner' with
    | nil => exact ⟨rfl, (List.cons.inj heq).1⟩
    | cons i is =>
      obtain ⟨rfl, -⟩ := List.cons.inj heq
      exact absurd ho (hinner' o mem_cons_self)
  | cons i is ih =>
    cases inner' with
    | nil =>
      obtain ⟨rfl, -⟩ := List.cons.inj heq
      exact absurd ho' (hinner i mem_cons_self)
    | cons j js =>
      obtain ⟨rfl, hrest⟩ := List.cons.inj heq
      obtain ⟨rfl, rfl⟩ := ih (fun k hk => hinner k (mem_cons_of_mem i hk)) hrest
        fun k hk => hinner' k (mem_cons_of_mem i hk)
      exact ⟨rfl, rfl⟩

/-- The scope that a factory was found in. -/
theorem leadsTo_of_lookupBind {opens : List (Block σ ι β)} {frames : List (Frame σ ι β)}
    (hframes : List.Forall₂ (fun o f => w.frame o = .ok f) opens frames) {b : Bind σ ι β}
    (hb : lookupBind frames key = some b) :
    ∃ inner o f, w.LeadsTo key opens inner o ∧ w.frame o = .ok f ∧ f.bind key = some b := by
  induction hframes with
  | nil => cases hb
  | @cons o f opens frames hf _ ih =>
    unfold lookupBind at hb
    rw [findSome?_cons] at hb
    cases hfound : f.bind key with
    | some b' =>
      rw [hfound] at hb
      obtain rfl := Option.some.inj hb
      have hhas : w.HasText key o := by
        by_contra hno
        rw [(bind_eq_none_iff hf).mpr hno] at hfound
        cases hfound
      exact ⟨[], o, f, ⟨opens, rfl, nofun, hhas⟩, hf, hfound⟩
    | none =>
      rw [hfound] at hb
      obtain ⟨inner, o', f', ⟨outer, rfl, hinner, ho'⟩, hf', hb'⟩ := ih hb
      refine ⟨o :: inner, o', f', ⟨outer, rfl, ?_, ho'⟩, hf', hb'⟩
      intro i hi
      rcases List.mem_cons.mp hi with rfl | hi
      · exact (bind_eq_none_iff hf).mp hfound
      · exact hinner i hi

/-- **Injection.**  The factory that a parameter or `inject` is given is the right one exactly
when texts and types go together up to the scope it was found in. -/
theorem provides_iff {opens : List (Block σ ι β)} {frames : List (Frame σ ι β)}
    (hframes : List.Forall₂ (fun o f => w.frame o = .ok f) opens frames) {r : Request σ ι}
    {b : Bind σ ι β} (hb : r.provided frames = some b) :
    w.Provides (r.type w) r.key opens b ↔ w.SpelledAlike (r.type w) r.key opens := by
  have hb : lookupBind frames r.key = some b := by
    unfold Request.provided at hb
    split at hb
    · cases hb
    · exact hb
  obtain ⟨inner, o, f, hleads, hf, hfound⟩ := leadsTo_of_lookupBind hframes hb
  have hone := @theOneFor_iff_alike _ _ _ _ (r.type w) _ _ _ hf _ hfound
  have hnone : ∀ i ∈ inner, (w.NoneFor (r.type w) i ↔ w.Alike (r.type w) r.key i) := by
    obtain ⟨outer, -, hinner, -⟩ := hleads
    exact fun i hi => noneFor_iff_alike (hinner i hi)
  constructor
  · rintro ⟨inner', o', hleads', hinner', hone'⟩ inner'' o'' hleads'' i hi
    obtain ⟨rfl, rfl⟩ := leadsTo_unique hleads hleads'
    obtain ⟨rfl, rfl⟩ := leadsTo_unique hleads hleads''
    rcases List.mem_append.mp hi with hi | hi
    · exact (hnone i hi).mp (hinner' i hi)
    · rw [List.mem_singleton.mp hi]
      exact hone.mp hone'
  · intro halike
    have halike := halike inner o hleads
    refine ⟨inner, o, hleads, fun i hi => ?_, hone.mpr (halike o (by simp))⟩
    exact (hnone i hi).mpr (halike i (by simp [hi]))

end

/-! ### Two classes of one name -/

/-- The same types have the same classes among their alternatives. -/
theorem SameType.inst_mem_iff {ι : Type} {xs ys : Meaning ι} (h : SameType xs ys) (c : ι) :
    (∃ args, .inst c args ∈ xs) ↔ ∃ args, .inst c args ∈ ys := by
  induction h with
  | members h => exact exists_congr fun args => h _
  | symm _ ih => exact ih.symm
  | trans _ _ ih ih' => exact ih.trans ih'
  | append _ _ ih ih' => simp only [mem_append, exists_or, ih, ih']
  | arg _ _ => simp

namespace Loggers

/-- `namespace A { class Logger … }` and `namespace B { class Logger … }`. -/
inductive Name where
  | loggerA
  | loggerB
deriving DecidableEq, Repr

/-- The scopes of the two namespaces. -/
def wiring : Wiring Bool Name Nat where
  scopes :=
    { kind := fun _ => .Class
      decl := fun _ => none
      scope := fun _ => none
      enclosing := fun sc => [sc]
      names := fun inA n =>
        if n = "Logger".toList then [if inA then .loggerA else .loggerB] else [] }
  symbolName _ := "Logger".toList
  isValueType _ := false
  exports _ := []

/-- `Logger`. -/
def logger : TypeRef Name := .named [] "Logger".toList [] none

/-- `bind Logger => …;` in `B`. -/
def bindB : Bind Bool Name Nat := ⟨logger, false, 0⟩

/-- The frame of `B`. -/
def frameB : Frame Bool Name Nat := ⟨[("Logger".toList, bindB)], []⟩

theorem frames : List.Forall₂ (fun o f => wiring.frame o = .ok f) [{ binds := [bindB] }] [frameB] :=
  .cons rfl .nil

end Loggers

open Loggers in
/-- In `B`, `inject Logger` is given the factory of `B`. -/
theorem provides_loggerB :
    wiring.Provides ((Request.inject logger false).type wiring) "Logger".toList
      [{ binds := [bindB] }] bindB := by
  refine (@provides_iff _ _ _ wiring _ _ frames (.inject logger false) bindB rfl).mpr ?_
  rintro inner o ⟨outer, heq, -, -⟩ i hi
  have hmem : i ∈ inner ++ o :: outer :=
    List.mem_append.mpr ((List.mem_append.mp hi).imp_right fun h => by
      rw [List.mem_singleton.mp h]
      exact mem_cons_self)
  rw [← heq] at hmem
  obtain rfl := List.mem_singleton.mp hmem
  refine ⟨fun b hb => ?_, fun hno => absurd rfl (hno bindB mem_cons_self)⟩
  obtain rfl := List.mem_singleton.mp hb
  exact ⟨fun _ => rfl, fun _ => SameType.refl _⟩

open Loggers in
/-- **The factory of another class.**  A parameter of the type that `A` calls `Logger` is given
the factory of `B` for what `B` calls `Logger`. -/
theorem loggerA_not_provided :
    (Request.parameter (fromTypeRef wiring.scopes true logger)).provided [frameB] = some bindB ∧
      ¬wiring.Provides (fromTypeRef wiring.scopes true logger) "Logger".toList
        [{ binds := [bindB] }] bindB := by
  refine ⟨rfl, ?_⟩
  rintro ⟨inner, o, -, -, hone⟩
  have hfor : wiring.For (fromTypeRef wiring.scopes true logger) bindB := by
    rcases hone with ⟨hmem, -, hone⟩ | ⟨-, -, hfor, -⟩
    · exact (hone bindB hmem).mpr rfl
    · exact hfor
  obtain ⟨args, hargs⟩ := (SameType.inst_mem_iff hfor .loggerA).mp ⟨[], mem_cons_self⟩
  cases List.mem_singleton.mp hargs

end Leviathan.Sema
