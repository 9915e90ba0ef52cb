import Leviathan.Lib.Runs
import Leviathan.Auth.Session

/-!
# Runs of the sessions

`Promise` says of an entry of the history what sessions promise: an `authenticate` that begins
after its session was removed does not succeed, none succeeds later than the creation time plus
the absolute maximum, and the rolling extension changes the expiry only.

The extension and `putSessionRecord` write a record under a session id whatever the store holds
there by then.  `Allowed` is when that does no harm.
-/

namespace Leviathan.Auth

variable {P : Type}

/-- What an entry promises, given the entries before it. -/
def Promise (cfg : SessionConfig) (before : List (Entry P)) : Entry P → Prop
  | .succeeded t sid nowMs _ =>
    (∀ later earlier, before = later ++ .began t sid :: earlier → .removed sid ∉ earlier) ∧
      ∀ c, .drawn sid c ∈ before → nowMs ≤ c + cfg.absoluteMaxSec * 1000
  | .extended _ old new => ∃ r, old = some r ∧ new = { r with expiresAtMs := new.expiresAtMs }
  | _ => True

/-- **What sessions promise.** -/
def Kept (cfg : SessionConfig) (log : List (Entry P)) : Prop := History.Past (Promise cfg) log

/-- What keeps the promises: the extension of a session finds the record in the store that it has
looked up, without flash data; `putSessionRecord` finds a record that differs in the flash data
only; and a new session id is new. -/
def Allowed (w : World P) : Label P → Prop
  | .answer t =>
    match w.task t with
    | .authPut sid _ _ found _ => w.store sid = some found ∧ found.flash = []
    | .recordPut sid record => ∃ r, w.store sid = some r ∧ record = { r with flash := record.flash }
    | _ => True
  | .make _ sid _ _ | .ensurePreSession _ _ sid _ _ => ∀ c, .drawn sid c ∉ w.log
  | _ => True

/-- A new session does not live longer than the absolute maximum. -/
def Capped (cfg : SessionConfig) : Prop := 0 ≤ cfg.ttlSec ∧ cfg.ttlSec ≤ cfg.absoluteMaxSec

/-! ## The invariant -/

/-- A record expires in time. -/
def SessionRecord.InTime (cfg : SessionConfig) (record : SessionRecord P) : Prop :=
  record.expiresAtMs ≤ record.createdAtMs + cfg.absoluteMaxSec * 1000

/-- The task found its session before it was removed, and in time. -/
structure Found (cfg : SessionConfig) (log : List (Entry P)) (t : Nat) (sid : Str) (nowMs : Int) :
    Prop where
  before : ∀ later earlier, log = later ++ .began t sid :: earlier → .removed sid ∉ earlier
  made : ∃ c, .drawn sid c ∈ log
  inTime : ∀ c, .drawn sid c ∈ log → nowMs ≤ c + cfg.absoluteMaxSec * 1000

/-- What a task knows. -/
def Knows (cfg : SessionConfig) (w : World P) (t : Nat) : Task P → Prop
  | .unborn => ∀ sid, .began t sid ∉ w.log
  | .authPut sid nowMs _ found updated =>
    updated = { found with expiresAtMs := updated.expiresAtMs, flash := [] } ∧
      updated.InTime cfg ∧ Found cfg w.log t sid nowMs
  | .authDone sid nowMs _ => Found cfg w.log t sid nowMs
  | .newPut sid record =>
    w.store sid = none ∧ .removed sid ∉ w.log ∧ .drawn sid record.createdAtMs ∈ w.log ∧
      record.InTime cfg ∧ ∀ t' record', w.task t' = .newPut sid record' → t' = t
  | _ => True

/-- What every step keeps. -/
structure Inv (cfg : SessionConfig) (w : World P) : Prop where
  kept : Kept cfg w.log
  stored : ∀ sid record, w.store sid = some record →
    .drawn sid record.createdAtMs ∈ w.log ∧ .removed sid ∉ w.log ∧ record.InTime cfg
  once : ∀ sid c c', .drawn sid c ∈ w.log → .drawn sid c' ∈ w.log → c = c'
  epoch : ∀ sid c, .drawn sid c ∈ w.log → 0 ≤ c
  removed : ∀ sid, .removed sid ∈ w.log → ∃ c, .drawn sid c ∈ w.log
  knows : ∀ t, Knows cfg w t (w.task t)

theorem wrap_le {n : Int} (h : -2 ^ 63 ≤ n) : wrap n ≤ n := by
  have hlt := Int.bmod_lt (x := n) (m := 2 ^ 64) (by decide)
  by_cases hsmall : n < 2 ^ 63
  · rw [wrap, Int.bmod_eq_of_le (by omega) (by omega)]
  · rw [wrap]
    omega

theorem le_wrap (n : Int) : -2 ^ 63 ≤ wrap n := by
  have h := Int.le_bmod (x := n) (m := 2 ^ 64) (by decide)
  rw [wrap]
  omega

theorem newRecord_inTime {cfg : SessionConfig} (hcfg : Capped cfg) (principal : Option P)
    (csrfToken : Str) (nowMs : Nat) : (newRecord cfg principal csrfToken nowMs).InTime cfg := by
  obtain ⟨hpos, hle⟩ := hcfg
  have hinner := wrap_le (n := cfg.ttlSec * 1000) (by omega)
  have hlow := le_wrap (cfg.ttlSec * 1000)
  have houter := wrap_le (n := (nowMs : Int) + wrap (cfg.ttlSec * 1000)) (by omega)
  show wrap (_ + _) ≤ (nowMs : Int) + _
  omega

/-! ## One step -/

/-- What a step of the task `t` does, with the entry that it adds to the history. -/
structure Evolves (w w' : World P) (t : Nat) (x : Option (Entry P)) : Prop where
  log : w'.log = x.toList ++ w.log
  began : ∀ t' sid, x = some (.began t' sid) → t' = t
  removed : ∀ sid, x = some (.removed sid) → ∃ r, w.store sid = some r
  drawn : ∀ sid c, x = some (.drawn sid c) → 0 ≤ c ∧ ∀ c', .drawn sid c' ∉ w.log
  others : ∀ t', t' ≠ t → w'.task t' = w.task t'
  store : ∀ sid, w.store sid = none → w'.store sid = none ∨ ∃ record, w.task t = .newPut sid record
  new : ∀ sid record, w'.task t = .newPut sid record →
    w.task t = .newPut sid record ∨ ∀ c, .drawn sid c ∉ w.log

variable {y : Task P} {sid : Str} {record : SessionRecord P}

section Step

variable {cfg : SessionConfig} {w w' : World P} {t t' : Nat} {x : Option (Entry P)}

theorem Evolves.mem (e : Evolves w w' t x) {y : Entry P} (hy : y ∈ w.log) : y ∈ w'.log := by
  rw [e.log]
  exact List.mem_append_right _ hy

theorem Evolves.mem_iff (e : Evolves w w' t x) {y : Entry P} :
    y ∈ w'.log ↔ x = some y ∨ y ∈ w.log := by
  rw [e.log, List.mem_append, Option.mem_toList]

/-- An entry that is not new stands where it stood. -/
theorem split_old {l log later earlier : List (Entry P)} {y : Entry P}
    (h : l ++ log = later ++ y :: earlier) (hy : y ∉ l) : ∃ later', log = later' ++ y :: earlier := by
  obtain ⟨a, hlater, hlog⟩ | ⟨c, hl, hearlier⟩ := List.append_eq_append_iff.mp h
  · exact ⟨a, hlog⟩
  · cases c with
    | nil => exact ⟨[], hearlier.symm⟩
    | cons z c =>
      rw [List.cons_append, List.cons.injEq] at hearlier
      rw [hl, hearlier.1] at hy
      exact absurd (List.mem_append_right _ List.mem_cons_self) hy

theorem Found.evolve (e : Evolves w w' t x) {nowMs : Int} (hx : x ≠ some (.began t' sid))
    (h : Found cfg w.log t' sid nowMs) :
    Found cfg w'.log t' sid nowMs := by
  refine ⟨fun later earlier hlog => ?_, ?_, fun c hc => ?_⟩
  · rw [e.log] at hlog
    have hold : Entry.began t' sid ∉ x.toList := by
      intro hmem
      rw [Option.mem_toList] at hmem
      exact hx hmem
    obtain ⟨later', hlog'⟩ := split_old hlog hold
    exact h.before later' earlier hlog'
  · obtain ⟨c, hc⟩ := h.made
    exact ⟨c, e.mem hc⟩
  · obtain ⟨c₀, hc₀⟩ := h.made
    obtain hnew | hold := e.mem_iff.mp hc
    · exact absurd hc₀ ((e.drawn sid c hnew).2 c₀)
    · exact h.inTime c hold

/-- **What the other tasks know stays true.** -/
theorem Knows.evolve (e : Evolves w w' t x) (hne : t' ≠ t) (h : Knows cfg w t' (w.task t')) :
    Knows cfg w' t' (w'.task t') := by
  rw [e.others t' hne]
  generalize htask : w.task t' = task at h ⊢
  cases task with
  | unborn =>
    intro sid hmem
    obtain hnew | hold := e.mem_iff.mp hmem
    · exact hne (e.began t' sid hnew)
    · exact h sid hold
  | authPut sid nowMs principal found updated => exact ⟨h.1, h.2.1, h.2.2.evolve e fun hx => hne (e.began t' sid hx)⟩
  | authDone sid nowMs principal => exact Found.evolve e (fun hx => hne (e.began t' sid hx)) h
  | newPut sid record =>
    obtain ⟨hstore, hremoved, hdrawn, htime, honly⟩ := h
    refine ⟨?_, fun hmem => ?_, e.mem hdrawn, htime, fun t'' record' ht'' => ?_⟩
    · obtain hnone | ⟨record', ht⟩ := e.store sid hstore
      · exact hnone
      · exact absurd (honly t record' ht).symm hne
    · obtain hnew | hold := e.mem_iff.mp hmem
      · obtain ⟨r, hr⟩ := e.removed sid hnew
        rw [hstore] at hr
        cases hr
      · exact hremoved hold
    · by_cases hself : t'' = t
      · rw [hself] at ht''
        obtain hsame | hnew := e.new sid record' ht''
        · exact hself.trans (honly t record' hsame)
        · exact absurd hdrawn (hnew _)
      · rw [e.others t'' hself] at ht''
        exact honly t'' record' ht''
  | authGet _ _ => trivial
  | issueRemove _ _ => trivial
  | issueMake _ => trivial
  | revokeRemove _ => trivial
  | recordPut _ _ => trivial
  | ended => trivial

/-- A step keeps the invariant when the task knows what it should, and what it stores is in time. -/
theorem Inv.evolve (h : Inv cfg w) (e : Evolves w w' t x)
    (hpromise : ∀ y, x = some y → Promise cfg w.log y)
    (hstored : ∀ sid record, w'.store sid = some record →
      .drawn sid record.createdAtMs ∈ w'.log ∧ .removed sid ∉ w'.log ∧ record.InTime cfg)
    (hself : Knows cfg w' t (w'.task t)) : Inv cfg w' where
  kept := by
    rw [Kept, e.log]
    cases x with
    | none => exact h.kept
    | some y => exact ⟨hpromise y rfl, h.kept⟩
  stored := hstored
  once := fun sid c c' hc hc' => by
    obtain hnew | hold := e.mem_iff.mp hc
    · obtain hnew' | hold' := e.mem_iff.mp hc'
      · rw [hnew, Option.some.injEq, Entry.drawn.injEq] at hnew'
        exact hnew'.2
      · exact absurd hold' ((e.drawn sid c hnew).2 c')
    · obtain hnew' | hold' := e.mem_iff.mp hc'
      · exact absurd hold ((e.drawn sid c' hnew').2 c)
      · exact h.once sid c c' hold hold'
  epoch := fun sid c hc => by
    obtain hnew | hold := e.mem_iff.mp hc
    · exact (e.drawn sid c hnew).1
    · exact h.epoch sid c hold
  removed := fun sid hmem => by
    obtain hnew | hold := e.mem_iff.mp hmem
    · obtain ⟨r, hr⟩ := e.removed sid hnew
      exact ⟨r.createdAtMs, e.mem (h.stored sid r hr).1⟩
    · obtain ⟨c, hc⟩ := h.removed sid hold
      exact ⟨c, e.mem hc⟩
  knows := fun t' => by
    by_cases hne : t' = t
    · rw [hne]
      exact hself
    · exact (h.knows t').evolve e hne

/-- A record that stays is in order as long as nothing is removed. -/
theorem Inv.stored_old (h : Inv cfg w) (e : Evolves w w' t x) (hx : ∀ sid, x ≠ some (.removed sid))
    (hrecord : w.store sid = some record) :
    .drawn sid record.createdAtMs ∈ w'.log ∧ .removed sid ∉ w'.log ∧ record.InTime cfg := by
  obtain ⟨hdrawn, hremoved, htime⟩ := h.stored sid record hrecord
  refine ⟨e.mem hdrawn, fun hmem => ?_, htime⟩
  obtain hnew | hold := e.mem_iff.mp hmem
  · exact hx sid hnew
  · exact hremoved hold

/-- The task moves on, and the store stays as it is. -/
theorem Inv.become (h : Inv cfg w) (e : Evolves w w' t x) (htask : w'.task t = y)
    (hstore : w'.store = w.store) (hx : ∀ sid, x ≠ some (.removed sid))
    (hpromise : ∀ z, x = some z → Promise cfg w.log z) (hself : Knows cfg w' t y) : Inv cfg w' := by
  refine h.evolve e hpromise (fun sid record hrecord => ?_) (htask ▸ hself)
  rw [hstore] at hrecord
  exact h.stored_old e hx hrecord

theorem become_self (w : World P) (t : Nat) (y : Task P) : (w.become t y).task t = y :=
  Function.update_self (β := fun _ => Task P) t y w.task

theorem become_other (w : World P) (y : Task P) (hne : t' ≠ t) :
    (w.become t y).task t' = w.task t' :=
  Function.update_of_ne (β := fun _ => Task P) hne y w.task

theorem evolves_become (w : World P) (t : Nat) (hnew : ∀ sid record, y ≠ .newPut sid record) :
    Evolves w (w.become t y) t none where
  log := rfl
  began := fun _ _ h => (nomatch h)
  removed := fun _ h => (nomatch h)
  drawn := fun _ _ h => (nomatch h)
  others := fun _ hne => become_other w y hne
  store := fun _ h => .inl h
  new := fun sid record h => absurd ((become_self w t y).symm.trans h) (hnew sid record)

/-- A task that knows nothing moves on. -/
theorem Inv.silent (h : Inv cfg w) (hnew : ∀ sid record, y ≠ .newPut sid record)
    (hself : Knows cfg (w.become t y) t y) : Inv cfg (w.become t y) :=
  h.become (evolves_become w t hnew) (become_self w t y) rfl (fun _ h => (nomatch h))
    (fun _ h => (nomatch h)) hself

theorem begin_some (h : w.begin t y = some w') : w.task t = .unborn ∧ w' = w.become t y := by
  rw [World.begin] at h
  split at h
  · next hunborn => exact ⟨hunborn, (Option.some.inj h).symm⟩
  · cases h

/-- A new session waits to be stored. -/
theorem Inv.draw (h : Inv cfg w) (hcfg : Capped cfg) {csrfToken : Str} {nowMs : Nat}
    (principal : Option P) (hfresh : ∀ c, .drawn sid c ∉ w.log) :
    Inv cfg ((w.become t (.newPut sid (newRecord cfg principal csrfToken nowMs))).note
      (.drawn sid nowMs)) := by
  have hnone : w.store sid = none := by
    cases hstore : w.store sid with
    | none => rfl
    | some r => exact absurd (h.stored sid r hstore).1 (hfresh _)
  have e : Evolves w ((w.become t (.newPut sid (newRecord cfg principal csrfToken nowMs))).note
      (.drawn sid nowMs)) t (some (.drawn sid nowMs)) := {
    log := rfl
    began := fun _ _ h => (nomatch h)
    removed := fun _ h => (nomatch h)
    drawn := fun sid' c hx => by
      rw [Option.some.injEq, Entry.drawn.injEq] at hx
      rw [← hx.1, ← hx.2]
      exact ⟨Int.natCast_nonneg nowMs, hfresh⟩
    others := fun _ hne => become_other w _ hne
    store := fun _ h => .inl h
    new := fun sid' record hnew => by
      have hself := (become_self w t _).symm.trans hnew
      rw [Task.newPut.injEq] at hself
      rw [← hself.1]
      exact .inr hfresh }
  refine h.become e (become_self w t _) rfl (fun _ hx => (nomatch hx))
    (fun z hz => ?_) ⟨hnone, ?_, List.mem_cons_self, newRecord_inTime hcfg _ _ _, ?_⟩
  · rw [← Option.some.inj hz]
    trivial
  · intro hmem
    obtain ⟨c, hc⟩ := h.removed sid ((List.mem_cons.mp hmem).resolve_left (by simp))
    exact hfresh c hc
  · intro t' record' ht'
    by_contra hne
    have hother : w.task t' = .newPut sid record' := (become_other w _ hne).symm.trans ht'
    have hknows := h.knows t'
    rw [hother] at hknows
    exact hfresh _ hknows.2.2.1

/-- What `authenticate` makes of a live record. -/
theorem look_spec (cfg : SessionConfig) (hcfg : Capped cfg) (nowMs : Int)
    (recOpt : Option (SessionRecord P)) :
    look cfg nowMs recOpt = .refused ∨
    ∃ record, recOpt = some record ∧ nowMs < record.expiresAtMs ∧
      ((∃ p, look cfg nowMs recOpt = .live p) ∨
        ∃ p updated, look cfg nowMs recOpt = .extend p record updated ∧
          updated = { record with expiresAtMs := updated.expiresAtMs, flash := [] } ∧
          (0 ≤ record.createdAtMs → updated.InTime cfg)) := by
  cases recOpt with
  | none => exact .inl rfl
  | some record =>
    simp only [look]
    by_cases hexpired : record.expiresAtMs ≤ nowMs
    · rw [if_pos hexpired]
      exact .inl rfl
    rw [if_neg hexpired]
    cases hprincipal : record.principal with
    | none => exact .inl rfl
    | some p =>
      refine .inr ⟨record, rfl, by omega, ?_⟩
      simp only
      split
      · refine .inr ⟨p, _, rfl, ?_, fun hcreated => ?_⟩
        · rw [hprincipal]
        · have hinner := wrap_le (n := cfg.absoluteMaxSec * 1000) (by
            have hmax := hcfg.1.trans hcfg.2
            omega)
          have hlow := le_wrap (cfg.absoluteMaxSec * 1000)
          have houter := wrap_le (n := record.createdAtMs + wrap (cfg.absoluteMaxSec * 1000))
            (by omega)
          show (if _ then _ else _) ≤ record.createdAtMs + _
          split
          · omega
          · omega
      · exact .inl ⟨p, rfl⟩

/-- A session that is found live was made and not removed, and is in time. -/
theorem Inv.found (h : Inv cfg w) {nowMs : Int} (hrecord : w.store sid = some record)
    (hlive : nowMs < record.expiresAtMs) :
    Found cfg w.log t sid nowMs := by
  obtain ⟨hdrawn, hremoved, htime⟩ := h.stored sid record hrecord
  refine ⟨fun later earlier hlog hmem => ?_, ⟨_, hdrawn⟩, fun c hc => ?_⟩
  · rw [hlog] at hremoved
    exact hremoved (List.mem_append_right _ (List.mem_cons_of_mem _ hmem))
  · have hsame := h.once sid _ _ hc hdrawn
    have htime' : record.expiresAtMs ≤ record.createdAtMs + cfg.absoluteMaxSec * 1000 := htime
    omega

theorem put_self (w : World P) (sid : Str) (record : SessionRecord P) :
    (w.put sid record).store sid = some record :=
  Function.update_self (β := fun _ => Option (SessionRecord P)) sid _ w.store

theorem put_other (w : World P) {sid' : Str} (record : SessionRecord P) (hne : sid' ≠ sid) :
    (w.put sid record).store sid' = w.store sid' :=
  Function.update_of_ne (β := fun _ => Option (SessionRecord P)) hne _ w.store

/-- A record is stored over one of the same session. -/
theorem Inv.overwrite (h : Inv cfg w) {old new : SessionRecord P} (hold : w.store sid = some old)
    (hcreated : new.createdAtMs = old.createdAtMs) (htime : new.InTime cfg)
    (hx : ∀ z, x = some z → ∃ o n, z = .extended sid o n)
    (hpromise : ∀ z, x = some z → Promise cfg w.log z) (hnew : ∀ sid record, y ≠ .newPut sid record)
    (hw' : w' = { (w.put sid new).become t y with log := x.toList ++ w.log })
    (hself : Evolves w w' t x → Knows cfg w' t y) : Inv cfg w' := by
  have htask : w'.task t = y := by
    rw [hw']
    exact become_self w t y
  have hnot : ∀ {z : Entry P}, (∀ o n, z ≠ .extended sid o n) → x ≠ some z := by
    intro z hz hxz
    obtain ⟨o, n, heq⟩ := hx z hxz
    exact hz o n heq
  have e : Evolves w w' t x := {
    log := by rw [hw']
    began := fun t' sid' hxz => absurd hxz (hnot (by simp))
    removed := fun sid' hxz => absurd hxz (hnot (by simp))
    drawn := fun sid' c hxz => absurd hxz (hnot (by simp))
    others := fun t' hne => by
      rw [hw']
      exact become_other w y hne
    store := fun sid' hnone => by
      have hne : sid' ≠ sid := by
        intro heq
        rw [heq, hold] at hnone
        cases hnone
      left
      rw [hw']
      exact (put_other w new hne).trans hnone
    new := fun sid' record hput => absurd (htask.symm.trans hput) (hnew sid' record) }
  refine h.evolve e hpromise (fun sid' record hrecord => ?_) (htask ▸ hself e)
  by_cases hsid : sid' = sid
  · have hsome : some new = some record := by
      rw [← hrecord, hw', hsid]
      exact (put_self w sid new).symm
    rw [hsid, ← Option.some.inj hsome]
    obtain ⟨hdrawn, hremoved, _⟩ := h.stored_old e (fun _ => hnot (by simp)) hold
    rw [hcreated]
    exact ⟨hdrawn, hremoved, htime⟩
  · refine h.stored_old e (fun _ => hnot (by simp)) ?_
    rw [← hrecord, hw']
    exact (put_other w new hsid).symm

/-- The first record of a session is stored. -/
theorem Inv.store_new (h : Inv cfg w) (htask : w.task t = .newPut sid record) :
    Inv cfg ((w.put sid record).become t .ended) := by
  obtain ⟨_, hremoved, hdrawn, htime, _⟩ : Knows cfg w t (.newPut sid record) := htask ▸ h.knows t
  have e : Evolves w ((w.put sid record).become t .ended) t none := {
    log := rfl
    began := fun _ _ h => (nomatch h)
    removed := fun _ h => (nomatch h)
    drawn := fun _ _ h => (nomatch h)
    others := fun t' hne => become_other _ _ hne
    store := fun sid' hnone => by
      by_cases hsid : sid' = sid
      · rw [hsid]
        exact .inr ⟨record, htask⟩
      · exact .inl ((put_other w record hsid).trans hnone)
    new := fun sid' record' hput => absurd ((become_self _ t _).symm.trans hput) (by simp) }
  refine h.evolve e (fun _ h => (nomatch h)) (fun sid' record' hrecord => ?_) ?_
  · by_cases hsid : sid' = sid
    · rw [hsid] at hrecord ⊢
      have hsome := (put_self w sid record).symm.trans hrecord
      rw [← Option.some.inj hsome]
      exact ⟨hdrawn, hremoved, htime⟩
    · exact h.stored_old e (fun _ hx => (nomatch hx)) ((put_other w record hsid).symm.trans hrecord)
  · rw [become_self]
    trivial

/-- A session is removed. -/
theorem Inv.remove (h : Inv cfg w) (hnew : ∀ sid record, y ≠ .newPut sid record)
    (hself : ∀ w', Knows cfg w' t y) :
    Inv cfg ((w.remove sid).become t y) := by
  have hother : ∀ sid', sid' ≠ sid → (w.remove sid).store sid' = w.store sid' := by
    intro sid' hne
    have hupdate : Function.update w.store sid none sid' = w.store sid' :=
      Function.update_of_ne (β := fun _ => Option (SessionRecord P)) hne _ w.store
    rw [World.remove]
    split
    · exact hupdate
    · exact hupdate
  have hgone : (w.remove sid).store sid = none := by
    have hupdate : Function.update w.store sid none sid = none :=
      Function.update_self (β := fun _ => Option (SessionRecord P)) sid _ w.store
    rw [World.remove]
    split
    · exact hupdate
    · exact hupdate
  obtain ⟨x, hlog, hx⟩ : ∃ x, (w.remove sid).log = x.toList ++ w.log ∧
      ∀ z, x = some z → z = .removed sid ∧ ∃ r, w.store sid = some r := by
    rw [World.remove]
    split
    · next hsome =>
        refine ⟨some (.removed sid), rfl, fun z hz => ⟨(Option.some.inj hz).symm, ?_⟩⟩
        exact Option.isSome_iff_exists.mp hsome
    · exact ⟨none, rfl, fun _ h => (nomatch h)⟩
  have htasks : (w.remove sid).task = w.task := by
    rw [World.remove]
    split
    · rfl
    · rfl
  have e : Evolves w ((w.remove sid).become t y) t x := {
    log := hlog
    began := fun _ _ hxz => absurd (hx _ hxz).1 (by simp)
    removed := fun sid' hxz => by
      obtain ⟨heq, hr⟩ := hx _ hxz
      rw [Entry.removed.injEq] at heq
      rw [heq]
      exact hr
    drawn := fun _ _ hxz => absurd (hx _ hxz).1 (by simp)
    others := fun t' hne => by rw [become_other _ _ hne, htasks]
    store := fun sid' hnone => by
      by_cases hsid : sid' = sid
      · rw [hsid]
        exact .inl hgone
      · exact .inl ((hother sid' hsid).trans hnone)
    new := fun sid' record' hput => absurd ((become_self _ t _).symm.trans hput) (hnew _ _) }
  refine h.evolve e (fun z hz => ?_) (fun sid' record hrecord => ?_) ?_
  · rw [(hx z hz).1]
    trivial
  · have hsid : sid' ≠ sid := by
      intro heq
      rw [heq] at hrecord
      exact absurd (hgone.symm.trans hrecord) (by simp)
    have hold := (hother sid' hsid).symm.trans hrecord
    obtain ⟨hdrawn, hremoved, htime⟩ := h.stored sid' record hold
    refine ⟨e.mem hdrawn, fun hmem => ?_, htime⟩
    obtain hxz | hmem := e.mem_iff.mp hmem
    · have heq := (hx _ hxz).1
      rw [Entry.removed.injEq] at heq
      exact hsid heq
    · exact hremoved hmem
  · rw [become_self]
    exact hself _

/-- A task has its answer. -/
theorem Inv.answered (h : Inv cfg w) (hcfg : Capped cfg) (hallowed : Allowed w (.answer t))
    (hstep : w.answered cfg t = some w') : Inv cfg w' := by
  rw [World.answered] at hstep
  rw [Allowed] at hallowed
  cases htask : w.task t with
  | authGet sid nowMs =>
    rw [htask] at hstep
    simp only at hstep
    obtain hrefused | ⟨record, hrecord, hlive, ⟨p, hp⟩ | ⟨p, updated, hp, hupdated, htime⟩⟩ :=
      look_spec cfg hcfg nowMs (w.store sid)
    · rw [hrefused] at hstep
      cases hstep
      exact h.silent (by simp) trivial
    · rw [hp] at hstep
      cases hstep
      exact h.silent (by simp) (h.found hrecord hlive)
    · rw [hp] at hstep
      cases hstep
      exact h.silent (by simp) ⟨hupdated, htime (h.epoch sid _ (h.stored sid record hrecord).1),
        h.found hrecord hlive⟩
  | authPut sid nowMs p found updated =>
    rw [htask] at hstep hallowed
    obtain ⟨hstored, hflash⟩ := hallowed
    obtain ⟨hupdated, htime, hfound⟩ : Knows cfg w t (.authPut sid nowMs p found updated) :=
      htask ▸ h.knows t
    cases hstep
    refine h.overwrite (x := some (.extended sid (w.store sid) updated))
      (y := .authDone sid nowMs p) hstored (by rw [hupdated]) htime (fun z hz => ?_) (fun z hz => ?_)
      (by simp) rfl fun e => hfound.evolve e (by simp)
    · exact ⟨_, _, (Option.some.inj hz).symm⟩
    · rw [← Option.some.inj hz]
      refine ⟨found, hstored, ?_⟩
      rw [← hflash] at hupdated
      exact hupdated
  | issueRemove oldSid p =>
    rw [htask] at hstep
    cases hstep
    exact h.remove (by simp) fun _ => trivial
  | revokeRemove sid =>
    rw [htask] at hstep
    cases hstep
    exact h.remove (by simp) fun _ => trivial
  | newPut sid record =>
    rw [htask] at hstep
    cases hstep
    exact h.store_new htask
  | recordPut sid record =>
    rw [htask] at hstep hallowed
    obtain ⟨r, hr, hrecord⟩ := hallowed
    cases hstep
    have htime : r.InTime cfg := (h.stored sid r hr).2.2
    refine h.overwrite (x := none) (y := .ended) hr (by rw [hrecord]) ?_ (fun _ h => (nomatch h))
      (fun _ h => (nomatch h)) (by simp) rfl fun _ => trivial
    rw [hrecord]
    exact htime
  | unborn =>
    rw [htask] at hstep
    cases hstep
  | authDone _ _ _ =>
    rw [htask] at hstep
    cases hstep
  | issueMake _ =>
    rw [htask] at hstep
    cases hstep
  | ended =>
    rw [htask] at hstep
    cases hstep

/-- A task moves on with an entry about itself. -/
theorem Inv.noted (h : Inv cfg w) {z : Entry P} (hnew : ∀ sid record, y ≠ .newPut sid record)
    (hbegan : ∀ t' sid, z = .began t' sid → t' = t) (hremoved : ∀ sid, z ≠ .removed sid)
    (hdrawn : ∀ sid c, z ≠ .drawn sid c) (hpromise : Promise cfg w.log z)
    (hself : ∀ w', Knows cfg w' t y) : Inv cfg ((w.become t y).note z) := by
  have e : Evolves w ((w.become t y).note z) t (some z) := {
    log := rfl
    began := fun t' sid hx => hbegan t' sid (Option.some.inj hx)
    removed := fun sid hx => absurd (Option.some.inj hx) (hremoved sid)
    drawn := fun sid c hx => absurd (Option.some.inj hx) (hdrawn sid c)
    others := fun _ hne => become_other w y hne
    store := fun _ h => .inl h
    new := fun sid record h => absurd ((become_self w t y).symm.trans h) (hnew sid record) }
  refine h.become e (become_self w t y) rfl (fun sid hx => hremoved sid (Option.some.inj hx))
    (fun z' hz => ?_) (hself _)
  rw [← Option.some.inj hz]
  exact hpromise

/-- The sweep only removes records. -/
theorem Inv.swept (h : Inv cfg w) (nowMs : Nat) :
    Inv cfg { w with
      store := fun sid => (w.store sid).filter fun record => nowMs < record.expiresAtMs } := by
  have e : ∀ t, Evolves w { w with
      store := fun sid => (w.store sid).filter fun record => nowMs < record.expiresAtMs } t none :=
    fun t => {
      log := rfl
      began := fun _ _ h => (nomatch h)
      removed := fun _ h => (nomatch h)
      drawn := fun _ _ h => (nomatch h)
      others := fun _ _ => rfl
      store := fun sid hnone => .inl (by simp only [hnone, Option.filter_none])
      new := fun _ _ hput => .inl hput }
  refine h.evolve (e 0) (fun _ h => (nomatch h)) (fun sid record hrecord => ?_) ?_
  · exact h.stored_old (e 0) (fun _ h => (nomatch h)) (Option.filter_eq_some_iff.mp hrecord).1
  · exact (h.knows 0).evolve (e 1) (by decide)

/-- **An allowed step keeps the invariant.** -/
theorem inv_step (prim : Primitives) (hcfg : Capped cfg) (h : Inv cfg w) {l : Label P}
    (hallowed : Allowed w l) (hstep : w.step prim cfg l = some w') : Inv cfg w' := by
  cases l with
  | authenticate t raw nowMs =>
    simp only [World.step] at hstep
    split at hstep
    · obtain ⟨_, hw'⟩ := begin_some hstep
      rw [hw']
      exact h.silent (by simp) trivial
    · next sid _ =>
        obtain ⟨w₁, hbegin, hnote⟩ := Option.map_eq_some_iff.mp hstep
        obtain ⟨_, hw₁⟩ := begin_some hbegin
        rw [← hnote, hw₁]
        exact h.noted (by simp) (by simp) (by simp) (by simp) trivial fun _ => trivial
  | issue t raw p =>
    simp only [World.step] at hstep
    split at hstep
    · obtain ⟨_, hw'⟩ := begin_some hstep
      rw [hw']
      exact h.silent (by simp) trivial
    · obtain ⟨_, hw'⟩ := begin_some hstep
      rw [hw']
      exact h.silent (by simp) trivial
  | revoke t raw =>
    simp only [World.step] at hstep
    split at hstep
    · obtain ⟨_, hw'⟩ := begin_some hstep
      rw [hw']
      exact h.silent (by simp) trivial
    · obtain ⟨_, hw'⟩ := begin_some hstep
      rw [hw']
      exact h.silent (by simp) trivial
  | ensurePreSession t raw sid csrfToken nowMs =>
    simp only [World.step] at hstep
    split at hstep
    · obtain ⟨_, hw'⟩ := begin_some hstep
      rw [hw']
      exact h.silent (by simp) trivial
    · obtain ⟨w₁, hbegin, hnote⟩ := Option.map_eq_some_iff.mp hstep
      obtain ⟨_, hw₁⟩ := begin_some hbegin
      rw [← hnote, hw₁]
      exact h.draw hcfg none hallowed
  | putSessionRecord t raw record =>
    simp only [World.step] at hstep
    split at hstep
    · obtain ⟨_, hw'⟩ := begin_some hstep
      rw [hw']
      exact h.silent (by simp) trivial
    · obtain ⟨_, hw'⟩ := begin_some hstep
      rw [hw']
      exact h.silent (by simp) trivial
  | make t sid csrfToken nowMs =>
    rw [World.step] at hstep
    cases htask : w.task t with
    | issueMake p =>
      rw [htask] at hstep
      cases hstep
      exact h.draw hcfg (some p) hallowed
    | _ =>
      rw [htask] at hstep
      cases hstep
  | answer t => exact h.answered hcfg hallowed hstep
  | finish t =>
    rw [World.step] at hstep
    cases htask : w.task t with
    | authDone sid nowMs p =>
      rw [htask] at hstep
      have hknows : Knows cfg w t (.authDone sid nowMs p) := htask ▸ h.knows t
      have hfound : Found cfg w.log t sid nowMs := hknows
      cases hstep
      refine h.noted (by simp) (by simp) (by simp) (by simp) ⟨hfound.before, hfound.inTime⟩ fun _ => trivial
    | _ =>
      rw [htask] at hstep
      cases hstep
  | sweep nowMs =>
    rw [World.step] at hstep
    cases hstep
    exact h.swept nowMs

end Step

theorem inv_start (cfg : SessionConfig) : Inv cfg ({} : World P) where
  kept := trivial
  stored := fun _ _ h => (nomatch h)
  once := fun _ _ _ h => (nomatch h)
  epoch := fun _ _ h => (nomatch h)
  removed := fun _ h => (nomatch h)
  knows := fun _ _ h => (nomatch h)

/-- Every signature is the same. -/
def sameSignature : Primitives where
  hmacSha256 _ _ := "g".toList
  base64UrlDecode := some
  toInt _ := some 4102444800000

/-- `defaultSessionConfig`. -/
def defaultConfig : SessionConfig := { key := [], ttlSec := 1800, absoluteMaxSec := 43200 }

/-- The cookie of the session `s`. -/
def cookie : Str := "v1.s.9.g".toList

end Leviathan.Auth
