import KnowledgeBase.Alarm
import KnowledgeBase.Redaction

/-! When the Drive sync runs: daily at a time of day in a time zone, or at an interval. What decides
it stands in the table `drive_sync_state`, so that a restart changes nothing. Times are counted in
microseconds. -/

namespace KnowledgeBase

namespace SyncSchedule

structure TimeOfDay where
  hour : Int
  minute : Int
  hour_lt : 0 ≤ hour ∧ hour < 24
  minute_lt : 0 ≤ minute ∧ minute < 60

def second : Int := 1000000

def day : Int := 86400 * second

def TimeOfDay.sinceMidnight (at_ : TimeOfDay) : Int := (at_.hour * 60 + at_.minute) * 60 * second

/-- Parses an `HH:MM` time. Refuses anything else rather than guess. -/
def parseAt (u : Unicode) (int : Text → Option Int) (repr : Text → Text) (value : Text) :
    Except Text TimeOfDay :=
  let refused := "GDRIVE_SYNC_AT must be HH:MM, got ".toList ++ repr value
  match (strip u value).splitOn ':' with
  | [hourS, minuteS] =>
    match int hourS, int minuteS with
    | some hour, some minute =>
      if h : (0 ≤ hour ∧ hour < 24) ∧ 0 ≤ minute ∧ minute < 60 then
        .ok ⟨hour, minute, h.1, h.2⟩
      else .error refused
    | _, _ => .error refused
  | _ => .error refused

/-- What a worker boots with. A malformed schedule fails here, not at the first slot. -/
def bootAt (u : Unicode) (int : Text → Option Int) (repr : Text → Text) (value : Text) :
    Except Text (Option TimeOfDay) :=
  if strip u value = [] then .ok none
  else (parseAt u int repr (strip u value)).map some

theorem parseAt_eq_ok {u : Unicode} {int : Text → Option Int} {repr : Text → Text} {value : Text}
    {at_ : TimeOfDay} : parseAt u int repr value = .ok at_ ↔
      ∃ hourS minuteS, (strip u value).splitOn ':' = [hourS, minuteS] ∧
        int hourS = some at_.hour ∧ int minuteS = some at_.minute := by
  constructor
  · intro h
    simp only [parseAt] at h
    split at h
    · rename_i hourS minuteS hparts
      split at h
      · rename_i hour minute hh hm
        split at h
        · cases h
          exact ⟨hourS, minuteS, hparts, hh, hm⟩
        · cases h
      · cases h
    · cases h
  · rintro ⟨hourS, minuteS, hparts, hh, hm⟩
    simp [parseAt, hparts, hh, hm, at_.hour_lt, at_.minute_lt]

/-- A time zone: what the wall clock shows at an instant, whether it shows that the second time,
and when it shows a time the first or the second time. -/
structure Zone where
  wall : Int → Int
  fold : Int → Bool
  instant : Int → Bool → Int

/-- The first scheduled time strictly after `moment`, on the local wall clock. -/
def nextSlotAfter (moment : Int) (at_ : TimeOfDay) (tz : Zone) : Int :=
  let loc := tz.wall moment
  let slot := loc - loc % day + at_.sinceMidnight
  if slot ≤ loc then tz.instant (slot + day) false
  else tz.instant slot (tz.fold moment)

structure Config where
  at_ : Option TimeOfDay
  tz : Zone
  intervalSeconds : Int
  retrySeconds : Int

def afterSuccess (cfg : Config) (lastSuccess : Int) : Int :=
  match cfg.at_ with
  | none => lastSuccess + cfg.intervalSeconds * second
  | some at_ => nextSlotAfter lastSuccess at_ cfg.tz

def computeDue (cfg : Config) (now : Int) (lastSuccess lastAttempt : Option Int)
    (lastFailed : Bool) : Int :=
  match lastFailed, lastAttempt with
  | true, some attempt => attempt + cfg.retrySeconds * second
  | _, _ =>
    match lastSuccess with
    | none => now
    | some success => afterSuccess cfg success

/-- What `drive_sync_state` says of the last runs. -/
structure Stored where
  lastSuccessAt : Option Int
  lastAttemptAt : Option Int
  lastError : Option Text

def lastFailed (s : Stored) : Bool :=
  (s.lastError.any (!List.isEmpty ·)) && match s.lastSuccessAt with
    | none => true
    | some success => s.lastAttemptAt.any (success < ·)

def dueAt (cfg : Config) (s : Stored) (now : Int) : Int :=
  computeDue cfg now s.lastSuccessAt s.lastAttemptAt (lastFailed s)

inductive Sync where
  | finished
  | alreadyRunning
  | failed (type message : Text)

/-- One wake of the loop: the three readings of the clock, what a sync comes to if one is run, and
whether the table can be read and written. -/
structure Tick where
  now : Int
  check : Int
  started : Int
  sync : Sync
  readable : Bool
  writable : Bool

def write (s : Stored) (started : Int) : Sync → Stored
  | .finished => ⟨some started, some started, none⟩
  | .failed type message =>
    { s with lastAttemptAt := some started
             lastError := some ((type ++ ": ".toList ++ message).take 1000) }
  | .alreadyRunning => s

/-- Runs a sync if one is due. Says whether it ran; nothing where an exception gets through to the
loop, which goes on with the next tick. -/
def runOnce (cfg : Config) (s : Stored) (tick : Tick) : Stored × Option Bool :=
  if !tick.readable then (s, none)
  else if tick.check < dueAt cfg s tick.now then (s, some false)
  else match tick.sync with
    | .alreadyRunning => (s, some false)
    | sync => if tick.writable then (write s tick.started sync, some true) else (s, none)

def run (cfg : Config) : Stored → List Tick → Stored
  | s, [] => s
  | s, tick :: ticks => run cfg (runOnce cfg s tick).1 ticks

/-- The syncs a worker has run and noted: when each began and whether it finished. -/
def noted (cfg : Config) : Stored → List Tick → List (Int × Bool)
  | _, [] => []
  | s, tick :: ticks =>
    (match (runOnce cfg s tick).2, tick.sync with
      | some true, .finished => [(tick.started, true)]
      | some true, .failed _ _ => [(tick.started, false)]
      | _, _ => []) ++ noted cfg (runOnce cfg s tick).1 ticks

section Zones

/-- The clock that goes back does so within a day, and what it shows twice is told apart. -/
structure Zone.Forward (tz : Zone) : Prop where
  same_day : ∀ t w, tz.wall t < w → tz.wall t / day = w / day → t < tz.instant w (tz.fold t)
  later_day : ∀ t w, tz.wall t / day < w / day → t < tz.instant w false

/-- The clock is never put forward or back. -/
def Zone.Steady (tz : Zone) : Prop := ∀ t w fold, tz.wall t < w ↔ t < tz.instant w fold

/-- An instant at which the wall clock shows the time of day. -/
def IsSlot (tz : Zone) (at_ : TimeOfDay) (t : Int) : Prop :=
  ∃ w fold, w % day = at_.sinceMidnight ∧ t = tz.instant w fold

variable {tz : Zone} {at_ : TimeOfDay} {t slot : Int}

theorem sinceMidnight_lt (at_ : TimeOfDay) : 0 ≤ at_.sinceMidnight ∧ at_.sinceMidnight < day := by
  obtain ⟨hour, minute, hh, hm⟩ := at_
  simp only [TimeOfDay.sinceMidnight, day, second]
  omega

theorem slot_div (loc : Int) (at_ : TimeOfDay) :
    (loc - loc % day + at_.sinceMidnight) / day = loc / day ∧
      (loc - loc % day + at_.sinceMidnight) % day = at_.sinceMidnight := by
  have hs := sinceMidnight_lt at_
  simp only [day, second] at hs ⊢
  omega

theorem Zone.Steady.forward (h : tz.Steady) : tz.Forward := by
  constructor
  · intro t w hw _
    exact (h t w _).mp hw
  · intro t w hw
    apply (h t w false).mp
    simp only [day, second] at hw
    omega

theorem nextSlotAfter_later (h : tz.Forward) (t : Int) (at_ : TimeOfDay) :
    t < nextSlotAfter t at_ tz := by
  have hd := slot_div (tz.wall t) at_
  simp only [nextSlotAfter]
  by_cases hpast : tz.wall t - tz.wall t % day + at_.sinceMidnight ≤ tz.wall t
  · simp only [hpast, if_true]
    apply h.later_day
    simp only [day, second] at hd ⊢
    omega
  · simp only [hpast, if_false]
    exact h.same_day t _ (not_le.mp hpast) hd.1.symm

theorem nextSlotAfter_isSlot (t : Int) : IsSlot tz at_ (nextSlotAfter t at_ tz) := by
  have hd := (slot_div (tz.wall t) at_).2
  simp only [nextSlotAfter]
  split
  · refine ⟨_, false, ?_, rfl⟩
    simp only [day, second] at hd ⊢
    omega
  · exact ⟨_, _, hd, rfl⟩

/-- No time of day is passed over. -/
theorem nextSlotAfter_first (h : tz.Steady) (hs : IsSlot tz at_ slot) (ht : t < slot) :
    nextSlotAfter t at_ tz ≤ slot := by
  obtain ⟨w, fold, hw, rfl⟩ := hs
  have hlt := (h t w fold).mpr ht
  have hle : ∀ w' fold', w' ≤ w → tz.instant w' fold' ≤ tz.instant w fold := by
    intro w' fold' hw'
    by_contra hno
    have hback := (h _ w' fold').mpr (not_le.mp hno)
    have hself := (h (tz.instant w fold) w fold).mp (by omega)
    omega
  have hd := slot_div (tz.wall t) at_
  simp only [nextSlotAfter]
  split
  · rename_i hpast
    apply hle
    simp only [day, second] at hd hw hpast ⊢
    omega
  · apply hle
    simp only [day, second] at hd hw ⊢
    omega

end Zones

structure Config.Sound (cfg : Config) : Prop where
  forward : cfg.tz.Forward
  interval_pos : 0 < cfg.intervalSeconds
  retry_pos : 0 < cfg.retrySeconds

def after (cfg : Config) (started : Int) (finished : Bool) : Int :=
  if finished then afterSuccess cfg started else started + cfg.retrySeconds * second

/-- What the stored values are an account of: the hour set by the last sync. -/
def alarm (cfg : Config) (s : Stored) : Option Int :=
  match lastFailed s, s.lastAttemptAt with
  | true, some attempt => some (after cfg attempt false)
  | _, _ => s.lastSuccessAt.map fun success => after cfg success true

def Tick.came (tick : Tick) : Option Bool :=
  if tick.readable && tick.writable then
    match tick.sync with
    | .finished => some true
    | .failed _ _ => some false
    | .alreadyRunning => none
  else none

def Tick.look (tick : Tick) : Alarm.Look Int Bool := ⟨tick.check, tick.started, tick.came⟩

/-- The clock does not go back, within a tick or from one to the next. -/
def Onward : Int → List Tick → Prop
  | _, [] => True
  | t, tick :: ticks =>
    t ≤ tick.now ∧ tick.now ≤ tick.check ∧ tick.check ≤ tick.started ∧ Onward tick.started ticks

variable {cfg : Config} {s : Stored} {tick : Tick} {ticks : List Tick} {t : Int}

theorem afterSuccess_later (h : cfg.Sound) (t : Int) : t < afterSuccess cfg t := by
  have hint := h.interval_pos
  simp only [afterSuccess]
  split
  · simp only [second]
    omega
  · exact nextSlotAfter_later h.forward t _

theorem after_later (h : cfg.Sound) (t : Int) (finished : Bool) : t < after cfg t finished := by
  have hretry := h.retry_pos
  cases finished with
  | true => simpa [after] using afterSuccess_later h t
  | false =>
    simp only [after, Bool.false_eq_true, if_false, second]
    omega

theorem dueAt_eq (now : Int) : dueAt cfg s now = (alarm cfg s).getD now := by
  simp only [dueAt, computeDue, alarm, after, if_true, Bool.false_eq_true, if_false]
  split
  · rfl
  · cases s.lastSuccessAt <;> rfl

theorem not_due_iff (h : tick.now ≤ tick.check) :
    tick.check < dueAt cfg s tick.now ↔ ¬ Alarm.Due (alarm cfg s) tick.check := by
  rw [dueAt_eq]
  cases alarm cfg s with
  | none => simpa [Alarm.Due] using h
  | some d => simp [Alarm.Due]

/-- An attempt comes after the last success. -/
theorem success_before (hcfg : cfg.Sound) (hdue : Alarm.Due (alarm cfg s) t) :
    s.lastSuccessAt.all (· < t) = true := by
  cases hs : s.lastSuccessAt with
  | none => rfl
  | some success =>
    simp only [Option.all_some, decide_eq_true_eq]
    cases hf : lastFailed s with
    | false =>
      have hd : after cfg success true ≤ t := by simpa [alarm, hf, hs, Alarm.Due] using hdue
      exact (after_later hcfg success true).trans_le hd
    | true =>
      cases ha : s.lastAttemptAt with
      | none => simp [lastFailed, hs, ha] at hf
      | some attempt =>
        have hd : after cfg attempt false ≤ t := by simpa [alarm, hf, ha, Alarm.Due] using hdue
        have hlater := after_later hcfg attempt false
        have hlt : success < attempt := by
          simp only [lastFailed, hs, ha, Option.any_some, Bool.and_eq_true, decide_eq_true_eq] at hf
          exact hf.2
        omega

theorem alarm_write (hcfg : cfg.Sound) (hdue : Alarm.Due (alarm cfg s) t) :
    alarm cfg (write s t .finished) = some (after cfg t true) ∧
    ∀ type message, alarm cfg (write s t (.failed type message)) = some (after cfg t false) := by
  constructor
  · simp [alarm, write, lastFailed]
  · intro type message
    have hb := success_before hcfg hdue
    have hf : lastFailed (write s t (.failed type message)) = true := by
      cases hs : s.lastSuccessAt with
      | none => simp [lastFailed, write, hs]
      | some success => simpa [lastFailed, write, hs] using hb
    have ha : (write s t (.failed type message)).lastAttemptAt = some t := rfl
    simp only [alarm, hf, ha]

theorem runOnce_alarm (hcfg : cfg.Sound) (hnow : tick.now ≤ tick.check)
    (hcheck : tick.check ≤ tick.started) :
    alarm cfg (runOnce cfg s tick).1 = Alarm.set (after cfg) (alarm cfg s) tick.look ∧
    ∀ ticks, noted cfg s (tick :: ticks) =
      (Alarm.attempt (alarm cfg s) tick.look).toList ++ noted cfg (runOnce cfg s tick).1 ticks := by
  by_cases hr : tick.readable = true
  · by_cases hdue : Alarm.Due (alarm cfg s) tick.check
    · have hlt : ¬ tick.check < dueAt cfg s tick.now := fun h => (not_due_iff hnow).mp h hdue
      have hstarted : Alarm.Due (alarm cfg s) tick.started := fun d hd =>
        (hdue d hd).trans hcheck
      obtain ⟨hfin, hfail⟩ := alarm_write hcfg hstarted
      cases hs : tick.sync <;> cases hw : tick.writable <;>
        simp [runOnce, noted, Alarm.set, Alarm.attempt, Tick.look, Tick.came, hr, hlt, hs, hw,
          hdue, hfin, hfail]
    · have hlt : tick.check < dueAt cfg s tick.now := (not_due_iff hnow).mpr hdue
      simp [runOnce, noted, Alarm.set, Alarm.attempt, Tick.look, hr, hlt, hdue]
  · simp [runOnce, noted, Alarm.set, Alarm.attempt, Tick.look, Tick.came, hr]

/-- The three stored values are an alarm that was set by the last sync. -/
theorem run_alarm (hcfg : cfg.Sound) (hclock : Onward t ticks) :
    alarm cfg (run cfg s ticks) =
      Alarm.run (after cfg) (alarm cfg s) (ticks.map Tick.look) ∧
    noted cfg s ticks = Alarm.attempts (after cfg) (alarm cfg s) (ticks.map Tick.look) := by
  induction ticks generalizing s t with
  | nil => exact ⟨rfl, rfl⟩
  | cons tick ticks ih =>
    obtain ⟨-, hnow, hcheck, hrest⟩ := hclock
    obtain ⟨halarm, hnoted⟩ := runOnce_alarm (s := s) hcfg hnow hcheck
    obtain ⟨hrun, hall⟩ := ih (s := (runOnce cfg s tick).1) hrest
    simp only [run, List.map_cons, Alarm.run, Alarm.attempts, ← halarm]
    exact ⟨hrun, by rw [hnoted, hall]⟩

theorem onward_looks (h : Onward t ticks) : Alarm.Onward t (ticks.map Tick.look) := by
  induction ticks generalizing t with
  | nil => trivial
  | cons tick ticks ih =>
    obtain ⟨hle, hnow, hcheck, hrest⟩ := h
    exact ⟨hle.trans hnow, hcheck, ih hrest⟩

/-- No scheduled time is served twice: between two syncs, the first of which finished, lies a
scheduled time, and after one that failed the retry is waited for. -/
theorem noted_spaced (hcfg : cfg.Sound) (hclock : Onward t ticks) :
    (noted cfg s ticks).Pairwise fun a b =>
      if a.2 then
        match cfg.at_ with
        | none => a.1 + cfg.intervalSeconds * second ≤ b.1
        | some at_ => ∃ slot, IsSlot cfg.tz at_ slot ∧ a.1 < slot ∧ slot ≤ b.1
      else a.1 + cfg.retrySeconds * second ≤ b.1 := by
  rw [(run_alarm hcfg hclock).2]
  refine (Alarm.attempts_spaced (onward_looks hclock)).imp ?_
  rintro ⟨started, finished⟩ b hle
  cases finished with
  | false => simpa [after] using hle
  | true =>
    simp only [after, afterSuccess, if_true] at hle ⊢
    split at hle
    · rename_i hat
      simpa [hat] using hle
    · rename_i at_ hat
      exact ⟨_, nextSlotAfter_isSlot started, nextSlotAfter_later hcfg.forward started at_, hle⟩

theorem Onward.split {pre post : List Tick} (h : Onward t (pre ++ tick :: post)) :
    Onward t pre ∧ tick.now ≤ tick.check ∧ tick.check ≤ tick.started := by
  induction pre generalizing t with
  | nil => exact ⟨trivial, h.2.1, h.2.2.1⟩
  | cons x pre ih =>
    obtain ⟨hle, hnow, hcheck, hrest⟩ := h
    have hh := ih hrest
    exact ⟨⟨hle, hnow, hcheck, hh.1⟩, hh.2⟩

theorem run_append (pre post : List Tick) :
    run cfg s (pre ++ post) = run cfg (run cfg s pre) post := by
  induction pre generalizing s with
  | nil => rfl
  | cons tick pre ih => exact ih

/-- Nothing that is due is left: where the sync was not already running and the table could be
used, either the last sync failed less than the retry ago, or it finished and no scheduled time
has passed since, however long the machine was off before. -/
theorem nothing_missed {pre post : List Tick} (hcfg : cfg.Sound)
    (hclock : Onward t (pre ++ tick :: post)) (hcame : tick.came.isSome = true) :
    let s' := run cfg s (pre ++ [tick])
    (lastFailed s' = true ∧ ∃ attempt, s'.lastAttemptAt = some attempt ∧
      tick.check < attempt + cfg.retrySeconds * second) ∨
    ∃ success, s'.lastSuccessAt = some success ∧ tick.check < afterSuccess cfg success ∧
      ∀ at_, cfg.at_ = some at_ → cfg.tz.Steady →
        ∀ slot, IsSlot cfg.tz at_ slot → success < slot → tick.check < slot := by
  intro s'
  obtain ⟨-, hnow, hcheck⟩ := hclock.split
  obtain ⟨finished, hcame⟩ := Option.isSome_iff_exists.mp hcame
  have hs' : s' = (runOnce cfg (run cfg s pre) tick).1 := run_append pre [tick]
  obtain ⟨d, hd, hlt⟩ : ∃ d, Alarm.set (after cfg) (alarm cfg (run cfg s pre)) tick.look = some d ∧
      tick.check < d := Alarm.set_later (after_later hcfg) hcheck hcame
  rw [← (runOnce_alarm hcfg hnow hcheck).1, ← hs'] at hd
  have hsuccess : ∀ success, s'.lastSuccessAt = some success → d = after cfg success true →
      ∃ success, s'.lastSuccessAt = some success ∧ tick.check < afterSuccess cfg success ∧
        ∀ at_, cfg.at_ = some at_ → cfg.tz.Steady →
          ∀ slot, IsSlot cfg.tz at_ slot → success < slot → tick.check < slot := by
    rintro success hat rfl
    have hlt' : tick.check < afterSuccess cfg success := by simpa [after, Tick.look] using hlt
    refine ⟨success, hat, hlt', ?_⟩
    intro at_ hcfgat hsteady slot hslot hafter
    have hfirst := nextSlotAfter_first hsteady hslot hafter
    simp only [afterSuccess, hcfgat] at hlt'
    omega
  cases hf : lastFailed s' with
  | false =>
    right
    obtain ⟨success, hat, he⟩ := Option.map_eq_some_iff.mp (by simpa [alarm, hf] using hd)
    exact hsuccess success hat he.symm
  | true =>
    cases ha : s'.lastAttemptAt with
    | none =>
      right
      obtain ⟨success, hat, he⟩ := Option.map_eq_some_iff.mp (by simpa [alarm, hf, ha] using hd)
      exact hsuccess success hat he.symm
    | some attempt =>
      left
      have he : after cfg attempt false = d := by simpa [alarm, hf, ha] using hd
      refine ⟨rfl, attempt, rfl, ?_⟩
      rw [← he] at hlt
      simpa [after, Tick.look] using hlt

section Example

/-- Asia/Kolkata. -/
def kolkata : Zone where
  wall t := t + 19800 * second
  fold _ := false
  instant w _ := w - 19800 * second

theorem kolkata_steady : kolkata.Steady := by
  intro t w fold
  simp only [kolkata]
  omega

theorem midnight_ok : (0 : Int) ≤ 0 ∧ (0 : Int) < 24 := by omega

theorem midnight_minute_ok : (0 : Int) ≤ 0 ∧ (0 : Int) < 60 := by omega

def nightly : Config where
  at_ := some ⟨0, 0, midnight_ok, midnight_minute_ok⟩
  tz := kolkata
  intervalSeconds := 900
  retrySeconds := 3600

theorem nightly_sound : nightly.Sound where
  forward := kolkata_steady.forward
  interval_pos := by decide
  retry_pos := by decide

def neverRun : Stored := ⟨none, none, none⟩

/-- A first sync that fails, the retry an hour later, and a wake after two days off. -/
def wakes : List Tick :=
  [⟨0, 1, 2, .failed ['E'] [], true, true⟩,
   ⟨3000000000, 3000000000, 3000000000, .finished, true, true⟩,
   ⟨3700000000, 3700000000, 3700000000, .finished, true, true⟩,
   ⟨172800000000, 172800000000, 172800000000, .finished, true, true⟩]

theorem wakes_onward : Onward 0 wakes := by simp [Onward, wakes]

theorem wakes_alarm :
    alarm nightly (run nightly neverRun wakes) =
      Alarm.run (after nightly) (alarm nightly neverRun) (wakes.map Tick.look) :=
  (run_alarm nightly_sound wakes_onward).1

theorem wakes_spaced : (noted nightly neverRun wakes).Pairwise fun a b =>
    if a.2 then
      match nightly.at_ with
      | none => a.1 + nightly.intervalSeconds * second ≤ b.1
      | some at_ => ∃ slot, IsSlot nightly.tz at_ slot ∧ a.1 < slot ∧ slot ≤ b.1
    else a.1 + nightly.retrySeconds * second ≤ b.1 :=
  noted_spaced nightly_sound wakes_onward

theorem wakes_caught_up : ∃ success,
    (run nightly neverRun wakes).lastSuccessAt = some success ∧
      172800000000 < afterSuccess nightly success := by
  have h := @nothing_missed nightly neverRun _ 0 (wakes.take 3) [] nightly_sound wakes_onward rfl
  rcases h with ⟨hno, -⟩ | ⟨success, hat, hlt, -⟩
  · exact absurd hno (by decide)
  · exact ⟨success, hat, hlt⟩

end Example

end SyncSchedule

end KnowledgeBase
