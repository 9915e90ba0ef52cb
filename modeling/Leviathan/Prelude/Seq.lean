import Leviathan.Lib.Fuel
import Leviathan.Prelude.Arrays

/-!
# Lazy sequences

The iterators of `Seq`.  An iterator is a state with `hasNext` and `next`; each combinator wraps
another iterator and keeps its own fields beside it, as the classes of the prelude do.  A loop runs
with a number of turns.  `none` is a thrown exception, or a value that was never set: what `next` does
past the end is left open.

The stages that call a function also keep which elements they have pulled from their source
(`pulled`) and on which they have called the function (`calls`).  These two fields are not in the
prelude, and no method reads them.  The functions themselves only return values.
-/

namespace Leviathan.Prelude

variable {α β : Type}

/-- `IIterator`. -/
structure Iterator (β : Type) where
  State : Type
  start : State
  hasNext : Nat → State → Option (Bool × State)
  next : Nat → State → Option (β × State)

/-- `ArrayIterator`; the state is `i`. -/
def arrayIterator (a : List α) : Iterator α where
  State := Int
  start := 0
  hasNext _ i := some (decide (i < a.length), i)
  next _ i := do
    let v ← elemAt a i
    return (v, i + 1)

/-- What a stage has pulled from its source and called its function on. -/
structure Calls (α : Type) where
  pulled : List α
  calls : List α

/-- `MapSeqIterator`. -/
structure MapState (σ α : Type) extends Calls α where
  src : σ

def mapIterator (s : Iterator α) (fn : α → β) : Iterator β where
  State := MapState s.State α
  start := ⟨⟨[], []⟩, s.start⟩
  hasNext n st := do
    let (b, src) ← s.hasNext n st.src
    return (b, { st with src })
  next n st := do
    let (v, src) ← s.next n st.src
    return (fn v, { src, pulled := st.pulled ++ [v], calls := st.calls ++ [v] })

/-- `FilterSeqIterator`. -/
structure FilterState (σ α : Type) extends Calls α where
  src : σ
  primed : Bool
  has : Bool
  val : Option α

/-- The loop of `prime`. -/
def filterLoop (s : Iterator α) (pred : α → Bool) :
    Nat → FilterState s.State α → Option (FilterState s.State α)
  | 0, _ => none
  | n + 1, st => do
    match ← s.hasNext n st.src with
    | (true, src) =>
      let (v, src) ← s.next n src
      let st := { st with src, pulled := st.pulled ++ [v], calls := st.calls ++ [v] }
      if pred v then return { st with val := some v, has := true }
      else filterLoop s pred n st
    | (false, src) => return { st with src }

def filterPrime (s : Iterator α) (pred : α → Bool) (n : Nat) (st : FilterState s.State α) :
    Option (FilterState s.State α) :=
  if st.primed then some st else filterLoop s pred n { st with primed := true, has := false }

def filterIterator (s : Iterator α) (pred : α → Bool) : Iterator α where
  State := FilterState s.State α
  start := ⟨⟨[], []⟩, s.start, false, false, none⟩
  hasNext n st := do
    let st ← filterPrime s pred n st
    return (st.has, st)
  next n st := do
    let st ← filterPrime s pred n st
    return (← st.val, { st with primed := false })

/-- `TakeSeqIterator`. -/
structure TakeState (σ : Type) where
  src : σ
  remaining : Int

def takeIterator (s : Iterator α) (k : Int) : Iterator α where
  State := TakeState s.State
  start := ⟨s.start, k⟩
  hasNext n st :=
    if st.remaining > 0 then do
      let (b, src) ← s.hasNext n st.src
      return (b, { st with src })
    else some (false, st)
  next n st := do
    let (v, src) ← s.next n st.src
    return (v, ⟨src, st.remaining - 1⟩)

/-- `TakeWhileSeqIterator`. -/
structure TakeWhileState (σ α : Type) extends FilterState σ α where
  done : Bool

def takeWhilePrime (s : Iterator α) (pred : α → Bool) (n : Nat) (st : TakeWhileState s.State α) :
    Option (TakeWhileState s.State α) :=
  if st.primed || st.done then some st
  else do
    match ← s.hasNext n st.src with
    | (true, src) =>
      let (v, src) ← s.next n src
      let st := { st with
        src, primed := true, pulled := st.pulled ++ [v], calls := st.calls ++ [v] }
      if pred v then return { st with val := some v, has := true }
      else return { st with has := false, done := true }
    | (false, src) => return { st with src, primed := true, has := false, done := true }

def takeWhileIterator (s : Iterator α) (pred : α → Bool) : Iterator α where
  State := TakeWhileState s.State α
  start := ⟨⟨⟨[], []⟩, s.start, false, false, none⟩, false⟩
  hasNext n st := do
    let st ← takeWhilePrime s pred n st
    return (st.has, st)
  next n st := do
    let st ← takeWhilePrime s pred n st
    return (← st.val, { st with primed := false })

/-- `SkipSeqIterator`. -/
structure SkipState (σ : Type) where
  src : σ
  skipped : Bool

/-- The loop of `doSkip`. -/
def skipLoop (s : Iterator α) (toSkip : Int) : Nat → Int → s.State → Option s.State
  | 0, _, _ => none
  | n + 1, k, src =>
    if k < toSkip then do
      match ← s.hasNext n src with
      | (true, src) =>
        let (_, src) ← s.next n src
        skipLoop s toSkip n (k + 1) src
      | (false, src) => return src
    else some src

def doSkip (s : Iterator α) (toSkip : Int) (n : Nat) (st : SkipState s.State) :
    Option (SkipState s.State) :=
  if st.skipped then some st
  else do
    let src ← skipLoop s toSkip n 0 st.src
    return ⟨src, true⟩

def skipIterator (s : Iterator α) (toSkip : Int) : Iterator α where
  State := SkipState s.State
  start := ⟨s.start, false⟩
  hasNext n st := do
    let st ← doSkip s toSkip n st
    let (b, src) ← s.hasNext n st.src
    return (b, { st with src })
  next n st := do
    let st ← doSkip s toSkip n st
    let (v, src) ← s.next n st.src
    return (v, { st with src })

/-- The loop of `toArray`. -/
def toArrayLoop (it : Iterator β) : Nat → it.State → List β → Option (List β × it.State)
  | 0, _, _ => none
  | n + 1, st, r => do
    match ← it.hasNext n st with
    | (true, st) =>
      let (v, st) ← it.next n st
      toArrayLoop it n st (r ++ [v])
    | (false, st) => return (r, st)

/-- `toArray`, and the state it leaves. -/
def toArray (it : Iterator β) (n : Nat) : Option (List β × it.State) :=
  toArrayLoop it n it.start []

/-- `hasNext()`, some number of times. -/
def ask (it : Iterator β) (n : Nat) : Nat → it.State → Option it.State
  | 0, st => some st
  | k + 1, st => do
    let (_, st) ← it.hasNext n st
    ask it n k st

/-- Calls of `next()`, each behind a number of calls of `hasNext()`. -/
def drive (it : Iterator β) (n : Nat) : List Nat → it.State → List β → Option (List β × it.State)
  | [], st, r => some (r, st)
  | k :: ks, st, r => do
    let st ← ask it n k st
    let (v, st) ← it.next n st
    drive it n ks st (r ++ [v])

/-! ### Pipelines -/

/-- Stages behind an array. -/
inductive Pipeline (α : Type) : Type → Type 1 where
  | nil : Pipeline α α
  | map {δ ε : Type} (p : Pipeline α δ) (fn : δ → ε) : Pipeline α ε
  | where_ {δ : Type} (p : Pipeline α δ) (pred : δ → Bool) : Pipeline α δ
  | take {δ : Type} (p : Pipeline α δ) (n : Nat) : Pipeline α δ
  | takeWhile {δ : Type} (p : Pipeline α δ) (pred : δ → Bool) : Pipeline α δ
  | skip {δ : Type} (p : Pipeline α δ) (n : Nat) : Pipeline α δ

namespace Pipeline

/-- `asSeq()` and the combinators of `Seq`. -/
def iterator (xs : List α) {δ : Type} : Pipeline α δ → Iterator δ
  | nil => arrayIterator xs
  | map p fn => mapIterator (p.iterator xs) fn
  | where_ p pred => filterIterator (p.iterator xs) pred
  | take p n => takeIterator (p.iterator xs) n
  | takeWhile p pred => takeWhileIterator (p.iterator xs) pred
  | skip p n => skipIterator (p.iterator xs) n

/-- The methods of `Array`. -/
def eager (xs : List α) {δ : Type} : Pipeline α δ → Option (List δ)
  | nil => some xs
  | map p fn => do return (Prelude.map fn (← p.eager xs)).result
  | where_ p pred => do return (Prelude.where_ pred (← p.eager xs)).result
  | take p n => do Prelude.take n (← p.eager xs)
  | takeWhile p pred => do return (Prelude.takeWhile pred (← p.eager xs)).result
  | skip p n => do Prelude.skip n (← p.eager xs)

end Pipeline

end Leviathan.Prelude
