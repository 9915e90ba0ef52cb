import Leviathan.Lib.Text

/-!
# Entities

`Model` of Atlantis with its two mixins, and what the rules generate for an entity class.  A class
is its table path, its primary key, its mapped columns in order, and whether it has `Timestamps`
and `SoftDelete`; an entity holds the values of its columns, the snapshot of its last seal and its
new flag.  The primary key is an `int` field by `__ormGuard`, and stands apart from the others.
-/

namespace Leviathan.Orm

open List

/-- An `int` has 64 bits. -/
def wrap (n : Int) : Int := n.bmod (2 ^ 64)

/-- `qcol`. -/
def qcol (name : Str) : Str := "`".toList ++ name ++ "`".toList

/-- `qpath`. -/
def qpath (segs : List Str) : Str := List.intercalate ".".toList (segs.map qcol)

/-- Where the database can raise its error in a save. -/
inductive Point where
  | acquire
  | begin
  | statement (k : Nat)
  | commit
deriving DecidableEq

/-- The exceptions that leave a save: the error of the database, and the exceptions of the unit of
work itself. -/
inductive Raised where
  | database (point : Point)
  | mapping (message : Str)
  | logic (message : Str)
  | bounds
deriving DecidableEq

/-! ## Cells -/

/-- `string | int | float | bool | None`. -/
inductive DbValue where
  | int (n : Int)
  | float (x : Float)
  | bool (b : Bool)
  | string (s : Str)
  | none

/-- `dbEq`; floats are compared as floats. -/
def dbEq : DbValue → DbValue → Bool
  | .int a, .int b => a == b
  | .float a, .float b => a == b
  | .bool a, .bool b => a == b
  | .string a, .string b => a == b
  | .none, .none => true
  | _, _ => false

/-- `string.toInt`, which reads strictly. -/
def toInt (s : Str) : Option Int :=
  let digits := if s.head? = some '-' then s.tail else s
  if digits = [] || !digits.all Char.isDigit then none
  else
    let n : Int := Nat.ofDigitChars 10 digits 0
    let v := if s.head? = some '-' then -n else n
    if -(2 ^ 63) ≤ v ∧ v < 2 ^ 63 then some v else none

/-- `asDbInt`. -/
def asDbInt (v : DbValue) (ctx : Str) : Except Raised Int :=
  match v with
  | .int n => .ok n
  | .string s =>
    match toInt s with
    | some n => .ok n
    | none => .error (.mapping (ctx ++ ": '".toList ++ s ++ "' is not an integer".toList))
  | .none => .error (.mapping (ctx ++
      (": NULL into a non-optional int — make the field `int?` or add NOT NULL").toList))
  | _ => .error (.mapping (ctx ++ ": cell is not an integer".toList))

/-! ## Dates -/

/-- A `DateTime` is its milliseconds since 1970. -/
structure DateTime where
  epochMs : Int
deriving DecidableEq

namespace DateTime

def epochDays (epochMs : Int) : Int :=
  let d := epochMs.tdiv 86400000
  if epochMs.tmod 86400000 < 0 then d - 1 else d

def dayMs (epochMs : Int) : Int :=
  let r := epochMs.tmod 86400000
  if r < 0 then r + 86400000 else r

/-- `civilFromDays`: year, month and day. -/
def civilFromDays (z : Int) : Int × Int × Int :=
  let zz := z + 719468
  let era := (if 0 ≤ zz then zz else zz - 146096).tdiv 146097
  let doe := zz - era * 146097
  let yoe := (doe - doe.tdiv 1460 + doe.tdiv 36524 - doe.tdiv 146096).tdiv 365
  let y := yoe + era * 400
  let doy := doe - (365 * yoe + yoe.tdiv 4 - yoe.tdiv 100)
  let mp := (5 * doy + 2).tdiv 153
  let d := doy - (153 * mp + 2).tdiv 5 + 1
  let m := if mp < 10 then mp + 3 else mp - 9
  (if m ≤ 2 then y + 1 else y, m, d)

variable (t : DateTime)

def year : Int := (civilFromDays (epochDays t.epochMs)).1
def month : Int := (civilFromDays (epochDays t.epochMs)).2.1
def day : Int := (civilFromDays (epochDays t.epochMs)).2.2
def hour : Int := ((dayMs t.epochMs).tdiv 3600000).tmod 24
def minute : Int := ((dayMs t.epochMs).tdiv 60000).tmod 60
def second : Int := ((dayMs t.epochMs).tdiv 1000).tmod 60
def milli : Int := (dayMs t.epochMs).tmod 1000

end DateTime

def ormPad2 (v : Int) : Str := (if v < 10 then "0".toList else []) ++ Text.decimal v

def ormPad3 (v : Int) : Str :=
  (if v < 10 then "00".toList else if v < 100 then "0".toList else []) ++ Text.decimal v

/-- `fmtDateTime`. -/
def fmtDateTime (d : DateTime) : Str :=
  let s := Text.decimal d.year ++ "-".toList ++ ormPad2 d.month ++ "-".toList ++ ormPad2 d.day ++
    " ".toList ++ ormPad2 d.hour ++ ":".toList ++ ormPad2 d.minute ++ ":".toList ++
    ormPad2 d.second
  if d.milli ≠ 0 then s ++ ".".toList ++ ormPad3 d.milli else s

/-! ## Classes and entities -/

/-- What the rules generate for an entity class: `__ormPath`, `__ormPk`, `__ormAutoPk` and
`__ormCols`, and which mixins it has. -/
structure EntityClass where
  ormPath : List Str
  ormPk : Str
  ormAutoPk : Bool
  ormCols : List Str
  timestamps : Bool
  softDelete : Bool

/-- An entity; `field` are its mapped fields other than the primary key. -/
structure Entity where
  cls : EntityClass
  pk : Int
  field : Str → DbValue
  createdAt : DateTime := ⟨0⟩
  updatedAt : DateTime := ⟨0⟩
  deletedAt : Option DateTime := none
  snap : List DbValue := []
  isNew : Bool := true

namespace Entity

variable (x : Entity)

/-- `__ormVals`. -/
def ormVals : List DbValue :=
  x.cls.ormCols.map fun c => if c = x.cls.ormPk then .int x.pk else x.field c

def tsCols : List Str := ["createdAt".toList, "updatedAt".toList]

def tsVals : List DbValue := [.string (fmtDateTime x.createdAt), .string (fmtDateTime x.updatedAt)]

def sdCols : List Str := ["deletedAt".toList]

def sdVals : List DbValue :=
  [match x.deletedAt with
    | none => .none
    | some d => .string (fmtDateTime d)]

def allCols : List Str :=
  x.cls.ormCols ++ (if x.cls.timestamps then tsCols else []) ++
    (if x.cls.softDelete then sdCols else [])

def allVals : List DbValue :=
  x.ormVals ++ (if x.cls.timestamps then x.tsVals else []) ++
    (if x.cls.softDelete then x.sdVals else [])

/-- The columns whose values differ from the snapshot; all of them when the snapshot is not of
this shape. -/
def dirtyCols : List Str :=
  if x.snap.length ≠ x.allVals.length then x.allCols
  else ((x.allCols.zip (x.allVals.zip x.snap)).filter fun c => !dbEq c.2.1 c.2.2).map Prod.fst

def isDirty : Bool := x.isNew || decide (0 < x.dirtyCols.length)

def ormSeal : Entity := { x with snap := x.allVals, isNew := false }

def ormTouchInsert (nowMs : Int) : Entity :=
  if x.cls.timestamps then { x with createdAt := ⟨nowMs⟩, updatedAt := ⟨nowMs⟩ } else x

def ormTouchUpdate (nowMs : Int) : Entity :=
  if x.cls.timestamps then { x with updatedAt := ⟨nowMs⟩ } else x

def ormMarkDeleted (nowMs : Int) : Entity :=
  if x.cls.softDelete then { x with deletedAt := some ⟨nowMs⟩ } else x

def ormSetPk (v : Int) : Entity := { x with pk := v }

/-- `pkVal`: the first column of the primary key's name, read as an integer. -/
def pkVal : Except Raised Int :=
  match (x.allCols.zip x.allVals).find? (fun c => c.1 == x.cls.ormPk) with
  | some c => asDbInt c.2 ("pk '".toList ++ x.cls.ormPk ++ "'".toList)
  | none => .error (.logic ("pk column '".toList ++ x.cls.ormPk ++
      "' not among allCols()".toList))

/-- `__ormPath().joinToString(".")`. -/
def pathKey : Str := List.intercalate ".".toList x.cls.ormPath

/-! ### Facts about one entity -/

/-- No field but the primary key holds a value that differs from itself, as a NaN does. -/
def NoNan (x : Entity) : Prop :=
  ∀ c ∈ x.cls.ormCols, c ≠ x.cls.ormPk → dbEq (x.field c) (x.field c) = true

/-- Two states of one object with the same columns. -/
structure SameRow (x y : Entity) : Prop where
  cls : y.cls = x.cls
  field : y.field = x.field

/-- An entity as a seal leaves it. -/
structure Sealed (x : Entity) : Prop where
  isNew : x.isNew = false
  snap : x.snap = x.allVals

theorem SameRow.refl (x : Entity) : SameRow x x := ⟨rfl, rfl⟩

theorem SameRow.trans {x y z : Entity} (hxy : SameRow x y) (hyz : SameRow y z) : SameRow x z :=
  ⟨hyz.cls.trans hxy.cls, hyz.field.trans hxy.field⟩

theorem SameRow.noNan {x y : Entity} (h : SameRow x y) : y.NoNan ↔ x.NoNan := by
  unfold NoNan
  rw [h.cls, h.field]

theorem sameRow_ormSeal (x : Entity) : SameRow x x.ormSeal := ⟨rfl, rfl⟩

theorem sameRow_ormSetPk (x : Entity) (v : Int) : SameRow x (x.ormSetPk v) := ⟨rfl, rfl⟩

theorem sealed_ormSeal (x : Entity) : Sealed x.ormSeal := ⟨rfl, rfl⟩

/-- A change of nothing but dates. -/
structure Restamped (x y : Entity) : Prop extends SameRow x y where
  pk : y.pk = x.pk
  isNew : y.isNew = x.isNew
  snap : y.snap = x.snap

theorem Restamped.refl (x : Entity) : Restamped x x := ⟨SameRow.refl x, rfl, rfl, rfl⟩

theorem Restamped.trans {x y z : Entity} (hxy : Restamped x y) (hyz : Restamped y z) :
    Restamped x z :=
  ⟨hxy.toSameRow.trans hyz.toSameRow, hyz.pk.trans hxy.pk, hyz.isNew.trans hxy.isNew,
    hyz.snap.trans hxy.snap⟩

theorem restamped_ormTouchInsert (x : Entity) (n : Int) : Restamped x (x.ormTouchInsert n) := by
  unfold ormTouchInsert
  split
  · exact ⟨⟨rfl, rfl⟩, rfl, rfl, rfl⟩
  · exact Restamped.refl x

theorem restamped_ormTouchUpdate (x : Entity) (n : Int) : Restamped x (x.ormTouchUpdate n) := by
  unfold ormTouchUpdate
  split
  · exact ⟨⟨rfl, rfl⟩, rfl, rfl, rfl⟩
  · exact Restamped.refl x

theorem restamped_ormMarkDeleted (x : Entity) (n : Int) : Restamped x (x.ormMarkDeleted n) := by
  unfold ormMarkDeleted
  split
  · exact ⟨⟨rfl, rfl⟩, rfl, rfl, rfl⟩
  · exact Restamped.refl x

theorem ormTouchInsert_idem (x : Entity) (n : Int) :
    (x.ormTouchInsert n).ormTouchInsert n = x.ormTouchInsert n := by
  by_cases h : x.cls.timestamps = true
  · simp [ormTouchInsert, h]
  · simp [ormTouchInsert, h]

theorem ormTouchUpdate_idem (x : Entity) (n : Int) :
    (x.ormTouchUpdate n).ormTouchUpdate n = x.ormTouchUpdate n := by
  by_cases h : x.cls.timestamps = true
  · simp [ormTouchUpdate, h]
  · simp [ormTouchUpdate, h]

theorem ormMarkDeleted_idem (x : Entity) (n : Int) :
    (x.ormMarkDeleted n).ormMarkDeleted n = x.ormMarkDeleted n := by
  by_cases h : x.cls.softDelete = true
  · simp [ormMarkDeleted, h]
  · simp [ormMarkDeleted, h]

theorem ormTouchInsert_eq_self {x : Entity} {n : Int}
    (h : x.cls.timestamps = true → x.createdAt = ⟨n⟩ ∧ x.updatedAt = ⟨n⟩) :
    x.ormTouchInsert n = x := by
  unfold ormTouchInsert
  split
  · rename_i hts
    obtain ⟨hc, hu⟩ := h hts
    cases x
    simp only at hc hu
    rw [hc, hu]
  · rfl

theorem ormTouchUpdate_eq_self {x : Entity} {n : Int}
    (h : x.cls.timestamps = true → x.updatedAt = ⟨n⟩) : x.ormTouchUpdate n = x := by
  unfold ormTouchUpdate
  split
  · rename_i hts
    have hu := h hts
    cases x
    simp only at hu
    rw [hu]
  · rfl

theorem ormMarkDeleted_eq_self {x : Entity} {n : Int}
    (h : x.cls.softDelete = true → x.deletedAt = some ⟨n⟩) : x.ormMarkDeleted n = x := by
  unfold ormMarkDeleted
  split
  · rename_i hs
    have hd := h hs
    cases x
    simp only at hd
    rw [hd]
  · rfl

/-- The stamp of a tracked entity: of a dirty one that is not new. -/
def touchDirty (nowMs : Int) (x : Entity) : Entity :=
  if !x.isNew && x.isDirty then x.ormTouchUpdate nowMs else x

theorem touchDirty_idem (x : Entity) (n : Int) :
    touchDirty n (touchDirty n x) = touchDirty n x := by
  unfold touchDirty
  split
  · split
    · exact ormTouchUpdate_idem x n
    · rfl
  · rfl

theorem restamped_touchDirty (x : Entity) (n : Int) : Restamped x (touchDirty n x) := by
  unfold touchDirty
  split
  · exact restamped_ormTouchUpdate x n
  · exact Restamped.refl x

@[simp] theorem ormMarkDeleted_createdAt (x : Entity) (n : Int) :
    (x.ormMarkDeleted n).createdAt = x.createdAt := by
  unfold ormMarkDeleted
  split <;> rfl

@[simp] theorem ormMarkDeleted_updatedAt (x : Entity) (n : Int) :
    (x.ormMarkDeleted n).updatedAt = x.updatedAt := by
  unfold ormMarkDeleted
  split <;> rfl

@[simp] theorem touchDirty_createdAt (x : Entity) (n : Int) :
    (x.touchDirty n).createdAt = x.createdAt := by
  unfold touchDirty ormTouchUpdate
  split
  · split <;> rfl
  · rfl

/-- The stamp of an update does not take the stamp of an insert back. -/
theorem touchDirty_updatedAt {x : Entity} {n : Int} (h : x.updatedAt = ⟨n⟩) :
    (x.touchDirty n).updatedAt = ⟨n⟩ := by
  unfold touchDirty ormTouchUpdate
  split
  · split
    · rfl
    · exact h
  · exact h

theorem length_allCols (x : Entity) : x.allCols.length = x.allVals.length := by
  unfold allCols allVals
  by_cases ht : x.cls.timestamps = true <;> by_cases hs : x.cls.softDelete = true <;>
    simp [ht, hs, ormVals, tsCols, tsVals, sdCols, sdVals]

theorem mem_allVals {x : Entity} {v : DbValue} (hv : v ∈ x.allVals) :
    (∃ c ∈ x.cls.ormCols, v = if c = x.cls.ormPk then .int x.pk else x.field c) ∨
      dbEq v v = true := by
  unfold allVals at hv
  rcases List.mem_append.mp hv with hv | hv
  · rcases List.mem_append.mp hv with hv | hv
    · obtain ⟨c, hc, rfl⟩ := List.mem_map.mp hv
      exact .inl ⟨c, hc, rfl⟩
    · right
      split at hv
      · rcases List.mem_cons.mp hv with rfl | hv
        · simp [dbEq]
        · obtain rfl := List.mem_singleton.mp hv
          simp [dbEq]
      · cases hv
  · right
    split at hv
    · obtain rfl := List.mem_singleton.mp hv
      cases x.deletedAt with
      | none => rfl
      | some d => simp [dbEq]
    · cases hv

/-- The values of an entity equal themselves exactly if none of its fields is a NaN. -/
theorem forall_dbEq_self {x : Entity} : (∀ v ∈ x.allVals, dbEq v v = true) ↔ x.NoNan := by
  constructor
  · intro h c hc hpk
    have hv : x.field c ∈ x.allVals := by
      unfold allVals ormVals
      refine mem_append_left _ (mem_append_left _ (List.mem_map.mpr ⟨c, hc, ?_⟩))
      rw [if_neg hpk]
    exact h _ hv
  · intro h v hv
    rcases mem_allVals hv with ⟨c, hc, rfl⟩ | hself
    · by_cases hpk : c = x.cls.ormPk
      · simp [hpk, dbEq]
      · rw [if_neg hpk]
        exact h c hc hpk
    · exact hself

theorem dirtyCols_eq_nil_of_sealed {x : Entity} (h : Sealed x) : x.dirtyCols = [] ↔ x.NoNan := by
  rw [← forall_dbEq_self, dirtyCols, if_neg (by simp [h.snap]), h.snap, map_eq_nil_iff,
    filter_eq_nil_iff]
  constructor
  · intro hall v hv
    obtain ⟨i, hi, rfl⟩ := getElem_of_mem hv
    have hcol : i < x.allCols.length := by rw [length_allCols]; exact hi
    have hmem : (x.allCols[i], x.allVals[i], x.allVals[i]) ∈
        x.allCols.zip (x.allVals.zip x.allVals) :=
      List.mem_iff_getElem.mpr ⟨i, by simp [hcol, hi], by simp⟩
    simpa using hall _ hmem
  · intro hall c hc
    obtain ⟨i, hi, rfl⟩ := getElem_of_mem hc
    simp only [length_zip, lt_min_iff] at hi
    simpa using hall _ (getElem_mem hi.2.1)

/-- A sealed entity is clean exactly if none of its fields is a NaN. -/
theorem isDirty_of_sealed {x : Entity} (h : Sealed x) : x.isDirty = false ↔ x.NoNan := by
  rw [← dirtyCols_eq_nil_of_sealed h]
  simp [isDirty, h.isNew]

theorem ormSeal_of_sealed {x : Entity} (h : Sealed x) : x.ormSeal = x := by
  cases x
  obtain ⟨rfl, hsnap⟩ := h
  simp only [ormSeal, Entity.mk.injEq, true_and]
  exact ⟨hsnap.symm, trivial⟩

theorem toInt_of_blank {s : Str} (hs : ' ' ∈ s.tail) : toInt s = none := by
  have hmem : ' ' ∈ (if s.head? = some '-' then s.tail else s) := by
    split
    · exact hs
    · exact mem_of_mem_tail hs
  have hall : (if s.head? = some '-' then s.tail else s).all Char.isDigit = false := by
    rw [all_eq_false]
    exact ⟨' ', hmem, by decide⟩
  unfold toInt
  simp [hall]

/-- A date is no integer: there is a blank between the day and the hour. -/
theorem toInt_fmtDateTime (d : DateTime) : toInt (fmtDateTime d) = none := by
  have hblank : ∀ a b : Str, ' ' ∈ (a ++ "-".toList ++ b ++ " ".toList).tail := by
    intro a b
    cases a with
    | nil => simp
    | cons c a => simp
  apply toInt_of_blank
  have hmem := hblank (Text.decimal d.year) (ormPad2 d.month ++ "-".toList ++ ormPad2 d.day)
  have happ : ∀ l l' : Str, ' ' ∈ l.tail → ' ' ∈ (l ++ l').tail := by
    intro l l' hl
    cases l with
    | nil => cases hl
    | cons c l => exact mem_append_left l' hl
  unfold fmtDateTime
  split
  · simpa only [append_assoc] using happ _ (ormPad2 d.hour ++ ":".toList ++
      ormPad2 d.minute ++ ":".toList ++ ormPad2 d.second ++ (".".toList ++ ormPad3 d.milli)) hmem
  · simpa only [append_assoc] using happ _ (ormPad2 d.hour ++ ":".toList ++
      ormPad2 d.minute ++ ":".toList ++ ormPad2 d.second) hmem

/-- A column with its value: a mapped field, or a date of a mixin. -/
theorem of_mem_columns {x : Entity} {c : Str × DbValue} (hc : c ∈ x.allCols.zip x.allVals) :
    c.2 = (if c.1 = x.cls.ormPk then .int x.pk else x.field c.1) ∨
      (∃ d, c.2 = .string (fmtDateTime d)) ∨ c.2 = .none := by
  have hts : (if x.cls.timestamps then tsCols else []).length =
      (if x.cls.timestamps then x.tsVals else []).length := by
    split <;> rfl
  unfold allCols allVals at hc
  rw [zip_append (by simp [ormVals, hts]), zip_append (by simp [ormVals])] at hc
  rcases List.mem_append.mp hc with hc | hc
  · rcases List.mem_append.mp hc with hc | hc
    · left
      unfold ormVals at hc
      rw [zip_map_right] at hc
      obtain ⟨y, hy, rfl⟩ := List.mem_map.mp hc
      obtain ⟨i, hi, rfl⟩ := getElem_of_mem hy
      simp
    · right; left
      split at hc
      · simp only [tsCols, tsVals, zip_cons_cons, zip_nil_right, mem_cons,
          not_mem_nil, or_false] at hc
        rcases hc with rfl | rfl
        · exact ⟨x.createdAt, rfl⟩
        · exact ⟨x.updatedAt, rfl⟩
      · cases hc
  · right
    split at hc
    · simp only [sdCols, sdVals, zip_cons_cons, zip_nil_right, mem_cons,
        not_mem_nil, or_false] at hc
      obtain rfl := hc
      cases x.deletedAt with
      | none => exact .inr rfl
      | some d => exact .inl ⟨d, rfl⟩
    · cases hc

/-- `pkVal` reads the primary key, or throws. -/
theorem eq_pk_of_pkVal {x : Entity} {n : Int} (h : x.pkVal = .ok n) : n = x.pk := by
  unfold pkVal at h
  split at h
  · rename_i c hc
    have hname : c.1 = x.cls.ormPk := by simpa using find?_some hc
    have hmem : c ∈ x.allCols.zip x.allVals := mem_of_find?_eq_some hc
    rcases of_mem_columns hmem with hval | ⟨d, hval⟩ | hval
    · rw [hval, if_pos hname] at h
      exact (Except.ok.inj h).symm
    · rw [hval] at h
      simp [asDbInt, toInt_fmtDateTime] at h
    · rw [hval] at h
      simp [asDbInt] at h
  · cases h

theorem pkVal_ne_database {x : Entity} {p : Point} : x.pkVal ≠ .error (.database p) := by
  intro h
  unfold pkVal asDbInt at h
  split at h
  · split at h
    · cases h
    · split at h <;> cases h
    · cases h
    · cases h
  · cases h

end Entity

end Leviathan.Orm
