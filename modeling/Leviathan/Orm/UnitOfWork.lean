import Leviathan.Orm.Model

/-!
# The unit of work

`Db.save` of Atlantis.  A save first plans its statements, and stamps the entities while it plans;
then it runs them one after the other on one connection, and writes every insert back before the
next statement runs.  What the database does is an input: `Backend` says at which point it raises
an error, if at any, and which ids it gives.

Entities are objects, and are numbered; the heap says what each of them holds.  A method that
throws leaves the objects as they are at that moment, so a step gives back the state also when it
fails.
-/

namespace Leviathan.Orm

open EStateM (Result)

/-- What the objects hold. -/
abbrev Heap := Nat → Entity

def Heap.modify (h : Heap) (e : Nat) (f : Entity → Entity) : Heap :=
  Function.update h e (f (h e))

/-- One entity after the other. -/
def Heap.each (f : Entity → Entity) (l : List Nat) (h : Heap) : Heap :=
  l.foldl (fun h e => h.modify e f) h

/-- A `Db` with the identity maps of its repos.  A repo is numbered as its handle, and `handles`
lists their path keys. -/
structure Db where
  heap : Heap
  newList : List Nat := []
  removeList : List Nat := []
  removeHardList : List Nat := []
  tracked : List Nat := []
  handles : List Str := []
  ident : Nat → Int → Option Nat := fun _ _ => none
  /-- inside `transact` -/
  pinned : Bool := false
  saving : Bool := false
  autoincMode : Int := -1

/-- The clock and the database in one save: what the probe of the lock mode reads, where the
database raises an error, and the `lastInsertId` of each statement. -/
structure Backend where
  nowMs : Int
  lockMode : Option Int
  fault : Option Point
  lastInsertId : Nat → Int

/-- What a statement is, and for an insert the entities to write back and their path key. -/
inductive Kind where
  | insert (group : List Nat) (pathKey : Str)
  | update
  | softdelete
  | delete
deriving DecidableEq

structure Statement where
  sql : Str
  params : List DbValue
  kind : Kind

/-! ## The plan -/

/-- `__ormInPh`. -/
def ormInPh (n : Nat) : Str := List.intercalate ",".toList (List.replicate n "?".toList)

/-- Steps over a list of entities, whose statements follow one another. -/
def planEach (step : Nat → Heap → Result Raised Heap (List Statement)) :
    List Nat → Heap → Result Raised Heap (List Statement)
  | [], h => .ok [] h
  | e :: rest, h =>
    match step e h with
    | .error err h => .error err h
    | .ok ss h =>
      match planEach step rest h with
      | .error err h => .error err h
      | .ok ss' h => .ok (ss ++ ss') h

/-- The new entities are stamped before anything else. -/
def touchInserts (nowMs : Int) : List Nat → Heap → Heap := Heap.each fun x => x.ormTouchInsert nowMs

def addKey (h : Heap) (keys : List Str) (e : Nat) : List Str :=
  if keys.contains (h e).pathKey then keys else keys ++ [(h e).pathKey]

/-- The path keys of the new entities, each once. -/
def groupKeys (h : Heap) (newList : List Nat) : List Str := newList.foldl (addKey h) []

/-- The new entities of a path key, in the order they were added. -/
def groupOf (h : Heap) (newList : List Nat) (key : Str) : List Nat :=
  newList.filter fun e => (h e).pathKey == key

def needMode (h : Heap) (newList : List Nat) : Bool :=
  (groupKeys h newList).any fun key => decide (1 < (groupOf h newList key).length)

/-- The values that an insert sends of an entity, column by column of the first of its group. -/
def insertParams (skip : Str → Bool) : List Str → List DbValue → Except Raised (List DbValue)
  | [], _ => .ok []
  | c :: cols, vals =>
    if skip c then insertParams skip cols vals.tail
    else match vals with
      | [] => .error .bounds
      | v :: vals => (insertParams skip cols vals).map (v :: ·)

/-- A column that an insert leaves to the database. -/
def skips (first : Entity) (c : Str) : Bool := first.cls.ormAutoPk && c == first.cls.ormPk

/-- The inserts of one group: one for the whole group, or one for each of its entities when the
database may interleave the ids. -/
def groupStatements (h : Heap) (newList : List Nat) (mode : Int) (key : Str) :
    Except Raised (List Statement) :=
  match groupOf h newList key with
  | [] => .error .bounds
  | e :: rest =>
    let group := e :: rest
    let first := h e
    let insCols := first.allCols.filter fun c => !skips first c
    let head := "INSERT INTO ".toList ++ qpath first.cls.ormPath ++ " (".toList ++
      List.intercalate ", ".toList (insCols.map qcol) ++ ") VALUES ".toList
    let rowPh := "(".toList ++ ormInPh insCols.length ++ ")".toList
    let row (e : Nat) := insertParams (skips first) first.allCols (h e).allVals
    if first.cls.ormAutoPk && mode == 2 && decide (1 < group.length) then
      group.mapM fun e => do
        let ps ← row e
        return ⟨head ++ rowPh, ps, .insert [e] key⟩
    else do
      let rows ← group.mapM row
      return [⟨head ++ List.intercalate ",".toList (group.map fun _ => rowPh), rows.flatten,
        .insert group key⟩]

def insertStatements (h : Heap) (newList : List Nat) (mode : Int) : Except Raised (List Statement) := do
  let groups ← (groupKeys h newList).mapM (groupStatements h newList mode)
  return groups.flatten

/-- A tracked entity: nothing, or the update of its dirty columns, after it has been stamped. -/
def planUpdate (nowMs : Int) (e : Nat) (h : Heap) : Result Raised Heap (List Statement) :=
  if (h e).isNew then .ok [] h
  else if !(h e).isDirty then .ok [] h
  else
    let h := h.modify e fun x => x.ormTouchUpdate nowMs
    let x := h e
    let dirty := x.dirtyCols
    let ps := dirty.flatMap fun d =>
      ((x.allCols.zip x.allVals).filter fun c => c.1 == d).map Prod.snd
    match x.pkVal with
    | .error err => .error err h
    | .ok pk => .ok [⟨"UPDATE ".toList ++ qpath x.cls.ormPath ++ " SET ".toList ++
        List.intercalate ", ".toList (dirty.map fun d => qcol d ++ " = ?".toList) ++
        " WHERE ".toList ++ qcol x.cls.ormPk ++ " = ?".toList, ps ++ [.int pk], .update⟩] h

def deleteStatement (x : Entity) (pk : Int) : Statement :=
  ⟨"DELETE FROM ".toList ++ qpath x.cls.ormPath ++ " WHERE ".toList ++ qcol x.cls.ormPk ++
    " = ?".toList, [.int pk], .delete⟩

/-- A removed entity: a tombstone with `SoftDelete`, which marks it, or a delete. -/
def planRemove (nowMs : Int) (e : Nat) (h : Heap) : Result Raised Heap (List Statement) :=
  let x := h e
  match x.pkVal with
  | .error err => .error err h
  | .ok pk =>
    if x.cls.softDelete then
      .ok [⟨"UPDATE ".toList ++ qpath x.cls.ormPath ++ " SET ".toList ++
        qcol "deletedAt".toList ++ " = ?".toList ++ " WHERE ".toList ++ qcol x.cls.ormPk ++
        " = ?".toList, [.string (fmtDateTime ⟨nowMs⟩), .int pk], .softdelete⟩]
        (h.modify e fun x => x.ormMarkDeleted nowMs)
    else .ok [deleteStatement x pk] h

def planRemoveHard (e : Nat) (h : Heap) : Result Raised Heap (List Statement) :=
  match (h e).pkVal with
  | .error err => .error err h
  | .ok pk => .ok [deleteStatement (h e) pk] h

/-- The lock mode that a save plans with: 1 unless some group has more than one entity, then the
mode of an earlier probe, or what a probe reads now. -/
def lockModeFor (b : Backend) (db : Db) : Int :=
  if needMode db.heap db.newList then
    if 0 ≤ db.autoincMode then db.autoincMode else b.lockMode.getD 1
  else 1

/-- `__autoincLockMode` keeps what it has read. -/
def probe (b : Backend) (db : Db) : Db :=
  if needMode db.heap db.newList then { db with autoincMode := lockModeFor b db } else db

/-- The statements of a save, and the heap after the stamps: inserts, updates of the tracked
entities, deletes. -/
def planSave (nowMs mode : Int) (newList tracked removeList removeHardList : List Nat) (h : Heap) :
    Result Raised Heap (List Statement) :=
  let h := touchInserts nowMs newList h
  match insertStatements h newList mode with
  | .error err => .error err h
  | .ok inserts =>
    match planEach (planUpdate nowMs) tracked h with
    | .error err h => .error err h
    | .ok updates h =>
      match planEach (planRemove nowMs) removeList h with
      | .error err h => .error err h
      | .ok removes h =>
        match planEach planRemoveHard removeHardList h with
        | .error err h => .error err h
        | .ok hards h => .ok (inserts ++ updates ++ removes ++ hards) h

/-- The plan of a save. -/
def Db.plan (b : Backend) (db : Db) : Result Raised Heap (List Statement) :=
  planSave b.nowMs (lockModeFor b db) db.newList db.tracked db.removeList db.removeHardList db.heap

/-! ## The run -/

/-- `__handleByPath`. -/
def Db.handleByPath (db : Db) (pathKey : Str) : Except Raised Nat :=
  match db.handles.findIdx? (· == pathKey) with
  | some repo => .ok repo
  | none => .error (.logic ("no repo registered for table path '".toList ++ pathKey ++
      "' — construct it via db.repo(() => Entity()) before use".toList))

/-- `__adopt` of a repo. -/
def Db.adopt (db : Db) (repo : Nat) (pk : Int) (e : Nat) : Db :=
  { db with ident := fun r k => if r = repo ∧ k = pk then some e else db.ident r k }

/-- An inserted entity gets its id if the database gave one, is sealed and tracked. -/
def Db.inserted (db : Db) (id : Option Int) (e : Nat) : Db :=
  { db with
    heap := db.heap.modify e fun x => ((id.map x.ormSetPk).getD x).ormSeal
    tracked := db.tracked ++ [e] }

/-- The write-back of an insert from its `j`th entity on. -/
def writeBack (pathKey : Str) (auto : Bool) (lastInsertId : Int) :
    Nat → List Nat → Db → Result Raised Db Unit
  | _, [], db => .ok () db
  | j, e :: rest, db =>
    let db := db.inserted (if auto then some (wrap (lastInsertId + j)) else none) e
    match db.handleByPath pathKey with
    | .error err => .error err db
    | .ok repo =>
      match (db.heap e).pkVal with
      | .error err => .error err db
      | .ok pk => writeBack pathKey auto lastInsertId (j + 1) rest (db.adopt repo pk e)

/-- What happens after a statement has been executed. -/
def finish (lastInsertId : Int) (kind : Kind) (db : Db) : Result Raised Db Unit :=
  match kind with
  | .insert [] _ => .error .bounds db
  | .insert (e :: rest) pathKey =>
    writeBack pathKey (db.heap e).cls.ormAutoPk lastInsertId 0 (e :: rest) db
  | _ => .ok () db

/-- The tracked entities that are still dirty at the end are sealed. -/
def reseal : List Nat → Heap → Heap :=
  Heap.each fun x => if !x.isNew && x.isDirty then x.ormSeal else x

/-- `__runPlan` from its `i`th statement on. -/
def runPlan (b : Backend) : Nat → List Statement → Db → Result Raised Db Unit
  | _, [], db => .ok () { db with heap := reseal db.tracked db.heap }
  | i, s :: rest, db =>
    if b.fault = some (.statement i) then .error (.database (.statement i)) db
    else match finish (b.lastInsertId i) s.kind db with
      | .error err db => .error err db
      | .ok _ db => runPlan b (i + 1) rest db

/-- A point at which the database is asked for something other than a statement. -/
def ask (b : Backend) (p : Point) (db : Db) : Result Raised Db Unit :=
  if b.fault = some p then .error (.database p) db else .ok () db

/-- What comes next, unless an exception has been raised. -/
def andThen (r : Result Raised Db Unit) (next : Db → Result Raised Db Unit) :
    Result Raised Db Unit :=
  match r with
  | .error err db => .error err db
  | .ok _ db => next db

/-- The statements on one connection: the pinned one, or one of the pool, and then in a transaction
if there are more than one.  A rollback does not touch the unit of work. -/
def execute (b : Backend) (ss : List Statement) (db : Db) : Result Raised Db Unit :=
  if db.pinned then runPlan b 0 ss db
  else andThen (ask b .acquire db) fun db =>
    if 1 < ss.length then
      andThen (ask b .begin db) fun db => andThen (runPlan b 0 ss db) (ask b .commit)
    else runPlan b 0 ss db

/-- The unit of work when the statements of a plan begin to run. -/
def planned (b : Backend) (db : Db) (h : Heap) : Db := { probe b db with heap := h }

/-- `__saveInner`. -/
def saveInner (b : Backend) (db : Db) : Result Raised Db Unit :=
  match db.plan b with
  | .error err h => .error err (planned b db h)
  | .ok ss h =>
    if ss.length = 0 then .ok () (planned b db h)
    else andThen (execute b ss (planned b db h)) fun db =>
      .ok () { db with newList := [], removeList := [], removeHardList := [] }

/-- `save`. -/
def save (b : Backend) (db : Db) : Result Raised Db Unit :=
  if db.saving then .error (.logic
    "re-entrant save() — await the previous save()".toList) db
  else match saveInner b { db with saving := true } with
    | .error err db => .error err { db with saving := false }
    | .ok _ db => .ok () { db with saving := false }

end Leviathan.Orm
