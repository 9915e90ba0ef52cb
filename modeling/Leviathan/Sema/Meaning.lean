import Leviathan.Sema.Types

/-!
# What a type denotes

A type is a set of values.  A value is a primitive one or an instance: a class with
its type arguments.  An instance of a class is seen as an instance of every class
it inherits from, with the arguments its base clauses give (`View`), and it belongs
to `C<X, Y>` if one of its views is `C` with arguments that are the types `X` and `Y`.

To compare arguments a type is taken apart into its alternatives, and two types are
the same (`SameType`) if they are made of the same alternatives, whatever their
order and however a union is nested.
-/

namespace Leviathan.Sema

open List

/-- One alternative of a type: a primitive, a class with its arguments, or something
this reading does not look into (a function type, an unresolved name). -/
inductive Atom (ι : Type) where
  | prim (sym : ι)
  | inst (sym : ι) (args : List (List (Atom ι)))
  | other (text : Str)

/-- A type as the list of its alternatives. -/
abbrev Meaning (ι : Type) := List (Atom ι)

/-- Two types are the same: the least congruence that looks at a union as the set of
its members. -/
inductive SameType {ι : Type} : Meaning ι → Meaning ι → Prop where
  | members {xs ys : Meaning ι} (h : ∀ a, a ∈ xs ↔ a ∈ ys) : SameType xs ys
  | symm {xs ys : Meaning ι} : SameType xs ys → SameType ys xs
  | trans {xs ys zs : Meaning ι} : SameType xs ys → SameType ys zs → SameType xs zs
  | append {xs xs' ys ys' : Meaning ι} :
      SameType xs xs' → SameType ys ys' → SameType (xs ++ ys) (xs' ++ ys')
  | arg {c : ι} {x x' : Meaning ι} {before after : List (Meaning ι)} :
      SameType x x' → SameType [.inst c (before ++ x :: after)] [.inst c (before ++ x' :: after)]

/-- Two lists of arguments are the same types one by one. -/
def SameTypes {ι : Type} : List (Meaning ι) → List (Meaning ι) → Prop := List.Forall₂ SameType

section
variable {ι : Type}

theorem SameType.refl (xs : Meaning ι) : SameType xs xs := .members fun _ => Iff.rfl

theorem SameTypes.refl (xs : List (Meaning ι)) : SameTypes xs xs :=
  List.forall₂_same.mpr fun x _ => SameType.refl x

theorem SameTypes.symm {xs ys : List (Meaning ι)} (h : SameTypes xs ys) : SameTypes ys xs := by
  induction h with
  | nil => exact .nil
  | cons h _ ih => exact .cons h.symm ih

theorem SameTypes.trans {xs ys zs : List (Meaning ι)} (h : SameTypes xs ys)
    (h' : SameTypes ys zs) : SameTypes xs zs := by
  induction h generalizing zs with
  | nil => exact h'
  | cons h _ ih =>
    cases h' with
    | cons h' hrest => exact .cons (h.trans h') (ih hrest)

/-- The same types have the same primitives among their alternatives. -/
theorem SameType.prim_mem_iff {xs ys : Meaning ι} (h : SameType xs ys) (p : ι) :
    .prim p ∈ xs ↔ .prim p ∈ ys := by
  induction h with
  | members h => exact h _
  | symm _ ih => exact ih.symm
  | trans _ _ ih ih' => exact ih.trans ih'
  | append _ _ ih ih' => rw [mem_append, mem_append, ih, ih']
  | arg _ _ => simp

/-- A class with the same arguments is the same type. -/
theorem SameTypes.inst {xs ys : List (Meaning ι)} (h : SameTypes xs ys) (c : ι) :
    SameType [.inst c xs] [.inst c ys] := by
  have hgo : ∀ before, SameType [.inst c (before ++ xs)] [.inst c (before ++ ys)] := by
    induction h with
    | nil => exact fun before => .refl _
    | @cons x y xs ys h _ ih =>
      intro before
      have hrest := ih (before ++ [y])
      rw [append_assoc, append_assoc] at hrest
      exact (SameType.arg h).trans hrest
  exact hgo []

end

section
variable {σ ι : Type} (s : Scopes σ ι) (scope : σ) (env : ι → Option (Meaning ι))

mutual

/-- The alternatives of a reference; `env` gives the type parameters. -/
def meaning : TypeRef ι → Meaning ι
  | .inferred => [.other "var".toList]
  | .function params ret => [.other (TypeRef.canonical (.function params ret))]
  | .union members => meaningAlts members
  | .named path name generics hygiene =>
    match s.resolvedSymbol scope (.named path name generics hygiene) with
    | none => [.other (TypeRef.qualName path name)]
    | some sym =>
      if s.kind sym = .Primitive then [.prim sym]
      else if s.kind sym = .Class then [.inst sym (meanings generics)]
      else (env sym).getD [.other (TypeRef.qualName path name)]

/-- The alternatives of the members of a union. -/
def meaningAlts : List (TypeRef ι) → Meaning ι
  | [] => []
  | t :: ts => meaning t ++ meaningAlts ts

/-- The arguments of a named type. -/
def meanings : List (TypeRef ι) → List (Meaning ι)
  | [] => []
  | t :: ts => meaning t :: meanings ts

end

theorem meaningAlts_eq_flatMap (ts : List (TypeRef ι)) :
    meaningAlts s scope env ts = ts.flatMap (meaning s scope env) := by
  induction ts with
  | nil => rfl
  | cons t ts ih => rw [meaningAlts, ih, flatMap_cons]

theorem meanings_eq_map (ts : List (TypeRef ι)) :
    meanings s scope env ts = ts.map (meaning s scope env) := by
  induction ts with
  | nil => rfl
  | cons t ts ih => rw [meanings, ih, map_cons]

end

/-- What two environments with the same types give. -/
theorem meaning_congr {σ ι : Type} (s : Scopes σ ι) (scope : σ) {env env' : ι → Option (Meaning ι)}
    (henv : ∀ p, Option.Rel SameType (env p) (env' p)) (t : TypeRef ι) :
    SameType (meaning s scope env t) (meaning s scope env' t) := by
  induction t using TypeRef.induction with
  | inferred => exact .refl _
  | function params ret _ _ => exact .refl _
  | union members ih =>
    rw [meaning, meaning]
    induction members with
    | nil => exact .refl _
    | cons m ms ihms =>
      rw [meaningAlts, meaningAlts]
      exact .append (ih m mem_cons_self)
        (ihms fun t ht => ih t (mem_cons_of_mem _ ht))
  | named path name generics hygiene ih =>
    rw [meaning, meaning]
    split
    · exact .refl _
    · next sym _ =>
        split
        · exact .refl _
        · split
          · apply SameTypes.inst
            rw [meanings_eq_map, meanings_eq_map]
            unfold SameTypes
            rw [forall₂_map_left_iff, forall₂_map_right_iff]
            exact List.forall₂_same.mpr ih
          · have hsym := henv sym
            cases hl : env sym with
            | none =>
              rw [hl] at hsym
              cases hr : env' sym with
              | none => exact .refl _
              | some y =>
                rw [hr] at hsym
                cases hsym
            | some x =>
              rw [hl] at hsym
              cases hr : env' sym with
              | none =>
                rw [hr] at hsym
                cases hsym
              | some y =>
                rw [hr] at hsym
                cases hsym with
                | some h => exact h

/-! ### Instances -/

/-- The arguments of a class by its type parameters. -/
def paramEnv {ι : Type} [DecidableEq ι] (params : List ι) (args : List (Meaning ι)) (p : ι) :
    Option (Meaning ι) :=
  ((params.zip args).find? (fun entry => entry.1 = p)).map Prod.snd

/-- Arguments that are the same types give environments that do. -/
theorem paramEnv_congr {ι : Type} [DecidableEq ι] (params : List ι) {args args' : List (Meaning ι)}
    (h : SameTypes args args') (p : ι) :
    Option.Rel SameType (paramEnv params args p) (paramEnv params args' p) := by
  unfold paramEnv
  induction h generalizing params with
  | nil => exact zip_nil_right ▸ .none
  | @cons x y xs ys h _ ih =>
    cases params with
    | nil => exact .none
    | cons q params =>
      rw [zip_cons_cons, zip_cons_cons, find?_cons, find?_cons]
      by_cases hq : q = p
      · rw [decide_eq_true hq]
        exact .some h
      · rw [decide_eq_false hq]
        exact ih params

section
variable {σ ι : Type} [DecidableEq ι] (s : SemanticModel σ ι)

/-- An instance of `a` with these arguments is one of `c` with those, through the base
clauses on a way from `a` to `c`. -/
inductive View : ι → List (Meaning ι) → ι → List (Meaning ι) → Prop where
  | refl (a : ι) (args : List (Meaning ι)) : View a args a args
  | step {a c : ι} {args out : List (Meaning ι)} {d : ClassDecl ι} {sc : σ} {path : List Str}
      {name : Str} {generics : List (TypeRef ι)} {hygiene : Option ι} {base : ι}
      (hdecl : s.decl a = some d) (hscope : s.scope a = some sc)
      (hbase : .named path name generics hygiene ∈ d.bases)
      (hresolved : s.resolvedSymbol sc (.named path name generics hygiene) = some base)
      (hview : View base (meanings s.toScopes sc (paramEnv d.generics args) generics) c out) :
      View a args c out

/-- A value: a primitive one, or an instance of a class with its type arguments. -/
inductive Value (ι : Type) where
  | prim (sym : ι)
  | instance_ (cls : ι) (args : List (Meaning ι))

/-- A value of one alternative of a type. -/
def InAtom : Value ι → Atom ι → Prop
  | .prim p, .prim q => p = q
  | .instance_ a args, .inst c xs => ∃ out, View s a args c out ∧ SameTypes out xs
  | _, _ => False

/-- A value of a type. -/
def HasType (v : Value ι) (m : Meaning ι) : Prop := ∃ a ∈ m, InAtom s v a

variable {s}

/-- A view goes along the base clauses. -/
theorem View.isSubclass {a c : ι} {args out : List (Meaning ι)} (h : View s a args c out) :
    s.isSubclass a c = true := by
  rw [SemanticModel.isSubclass_iff]
  induction h with
  | refl => exact .refl
  | @step a c args out d sc path name generics hygiene base hdecl hscope hbase hresolved _ ih =>
    refine .head ?_ ih
    unfold SemanticModel.Base Scopes.baseSymbols
    rw [hdecl, hscope]
    exact List.mem_filterMap.mpr ⟨_, hbase, hresolved⟩

/-- Views compose. -/
theorem View.trans {a b c : ι} {args mid out : List (Meaning ι)} (h : View s a args b mid)
    (h' : View s b mid c out) : View s a args c out := by
  induction h with
  | refl => exact h'
  | step hdecl hscope hbase hresolved _ ih => exact .step hdecl hscope hbase hresolved (ih h')

/-- Instances with the same arguments have the same views. -/
theorem View.congr {a c : ι} {args args' out : List (Meaning ι)} (h : View s a args c out)
    (hargs : SameTypes args args') : ∃ out', View s a args' c out' ∧ SameTypes out out' := by
  induction h generalizing args' with
  | refl => exact ⟨args', .refl _ _, hargs⟩
  | @step a c args out d sc path name generics hygiene base hdecl hscope hbase hresolved _ ih =>
    have hgenerics : SameTypes (meanings s.toScopes sc (paramEnv d.generics args) generics)
        (meanings s.toScopes sc (paramEnv d.generics args') generics) := by
      rw [meanings_eq_map, meanings_eq_map]
      unfold SameTypes
      rw [forall₂_map_left_iff, forall₂_map_right_iff]
      exact List.forall₂_same.mpr fun g _ =>
        meaning_congr s.toScopes sc (paramEnv_congr d.generics hargs) g
    obtain ⟨out', hview, hsame⟩ := ih hgenerics
    exact ⟨out', .step hdecl hscope hbase hresolved hview, hsame⟩

/-- An instance is seen as its own class with its own arguments only. -/
theorem View.eq_of_self {a : ι} {args out : List (Meaning ι)} (h : View s a args a out) :
    out = args := by
  cases h with
  | refl => rfl
  | @step _ _ _ _ d sc path name generics hygiene base hdecl hscope hbase hresolved hview =>
    have hup := (SemanticModel.isSubclass_iff s).mp hview.isSubclass
    have hmem : s.Base a base := by
      unfold SemanticModel.Base Scopes.baseSymbols
      rw [hdecl, hscope]
      exact List.mem_filterMap.mpr ⟨_, hbase, hresolved⟩
    have hlt := s.rank_lt_of_transGen (Relation.TransGen.head' hmem hup)
    omega

end

end Leviathan.Sema
