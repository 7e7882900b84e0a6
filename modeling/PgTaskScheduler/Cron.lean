import PgTaskScheduler.Models

/-!
# `cron`

The cron engine is a parameter: a parser and a search for the next occurrence, both of which can
fail. A `CronExpression` carries the proof that its text parses.
-/

namespace PgTaskScheduler

/-- `croner::Cron`: `parse`, and `find_next_occurrence` without the starting instant. -/
structure Croner where
  Pattern : Type
  parse : String → Except String Pattern
  findNextOccurrence : Pattern → DateTime → Except String DateTime

/-- Documented behaviour: an exclusive search answers a later instant. -/
def Croner.StrictlyAfter (K : Croner) : Prop :=
  ∀ p after next, K.findNextOccurrence p after = .ok next → after.val < next.val

structure CronExpression (K : Croner) where
  source : String
  schedule : K.Pattern
  parsed : K.parse source = .ok schedule

namespace CronExpression

variable (K : Croner)

/-- `parse_inner` -/
def parseInner (source : String) : Except CronError (CronExpression K) :=
  match h : K.parse source with
  | .ok schedule => .ok ⟨source, schedule, h⟩
  | .error detail => .error (.parse source detail)

def parse (source : String) : Except SchedulerError (CronExpression K) :=
  (parseInner K source).mapError .cron

/-- `parse_stored`: a failure is attributed to the job that owns the text. -/
def parseStored (id : JobId) (source : String) : Except SchedulerError (CronExpression K) :=
  (parseInner K source).mapError fun e => .corruptJob id (.cron e)

variable {K}

/-- The next occurrence strictly after `after`. -/
def nextAfter (c : CronExpression K) (after : DateTime) : Except SchedulerError DateTime :=
  (K.findNextOccurrence c.schedule after).mapError fun detail => .cron (.search detail)

theorem parseInner_of_ok {source : String} {p : K.Pattern} (h : K.parse source = .ok p) :
    parseInner K source = .ok ⟨source, p, h⟩ := by
  unfold parseInner
  split
  · next schedule h' =>
    obtain rfl : p = schedule := Except.ok.inj (h.symm.trans h')
    rfl
  · next detail h' => exact nomatch h.symm.trans h'

theorem parse_of_ok {source : String} {p : K.Pattern} (h : K.parse source = .ok p) :
    parse K source = .ok ⟨source, p, h⟩ := by
  rw [parse, parseInner_of_ok h]
  rfl

theorem parse_of_error {source detail : String} (h : K.parse source = .error detail) :
    parse K source = .error (.cron (.parse source detail)) := by
  unfold parse parseInner
  split
  · next schedule h' => exact nomatch h.symm.trans h'
  · next detail' h' =>
    obtain rfl : detail = detail' := Except.error.inj (h.symm.trans h')
    rfl

/-- The next occurrence is later, given the engine's documented behaviour. -/
theorem nextAfter_gt (hK : K.StrictlyAfter) {c : CronExpression K} {after next : DateTime}
    (h : c.nextAfter after = .ok next) : after.val < next.val := by
  unfold nextAfter at h
  rcases hf : K.findNextOccurrence c.schedule after with detail | n
  · rw [hf] at h
    exact nomatch h
  · rw [hf] at h
    obtain rfl : n = next := Except.ok.inj h
    exact hK _ _ _ hf

/-- A timestamp column holds the next occurrence: `chrono` ends before PostgreSQL does. -/
theorem nextAfter_inRange (hK : K.StrictlyAfter) {c : CronExpression K} {after next : DateTime}
    (h : c.nextAfter after = .ok next) (hafter : minTimestamp ≤ after.val) : InRange next.val :=
  ⟨hafter.trans (nextAfter_gt hK h).le, lt_of_le_of_lt next.property.2 (by decide)⟩

end CronExpression

/-- An engine for worked examples: every text parses, and there is an occurrence every second. -/
def Croner.everySecond : Croner where
  Pattern := Unit
  parse _ := .ok ()
  findNextOccurrence _ t :=
    if h : Decodable (t.val + 1000000) then .ok ⟨t.val + 1000000, h⟩ else .error "out of range"

end PgTaskScheduler
