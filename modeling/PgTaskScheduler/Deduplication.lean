import PgTaskScheduler.Snapshots

/-!
# Deduplicated enqueue

A deduplication key identifies one run for each task name. An enqueue whose key is taken answers
the run that holds it and changes nothing; any other enqueue inserts one fresh pending run. An
enqueue fails exactly if PostgreSQL cannot store one of its values or the id drawn for a new run is
taken, and then it changes nothing.
-/

namespace PgTaskScheduler

open Tables ReadCommitted

variable {K : Croner}

/-! ## Values that PostgreSQL stores -/

/-- What the bound values of an enqueue need to be stored: no `U+0000`, and an instant that a
timestamp column holds. -/
structure Storable (env : Env) (name : JobName) (json : Json) (options : EnqueueOptions) :
    Prop where
  name : TextOk name.value
  args : hasNulEscape json.text.toList = false
  key : ∀ k ∈ options.deduplication.text, TextOk k
  instant : InRange (options.availability.instant.elim env.now Subtype.val)

section Statement

variable {env : Env} {name : JobName} {json : Json} {options : EnqueueOptions} {snap cur : Store}

end Statement

/-! ## The phases of an enqueue -/

/-- The run `b` holds the key of the call, and `w` leaves it as it is. -/
structure Kept (name : JobName) (options : EnqueueOptions) (C : Store) (L : List RowRef)
    (w : Patch) (b : Run) : Prop where
  stored : lookup Run.id b.id C.runs = some b
  name : b.jobName = name.value
  key : b.deduplicationKey = options.deduplication.text
  keyed : options.deduplication.text.isSome
  locked : .run b.id ∈ L
  patch : w = { runs := { update := [b] } }

/-- The row `r` is new, and `w` inserts it. -/
structure Inserted (C : Store) (L : List RowRef) (w : Patch) (r : Run) : Prop where
  fresh : ∀ b ∈ C.runs, b.id ≠ r.id
  key : ∀ k, r.deduplication = some k → ∀ b ∈ C.runs, b.deduplication ≠ some k
  locked : r.refs ⊆ L
  patch : w = { runs := { insert := [r] } }

section Phase

variable {taskName : String} {args : Except String Json} {options : EnqueueOptions} {C : Store}
  {σ : Server K}

end Phase

theorem Kept.agree {name : JobName} {options : EnqueueOptions} {C C' : Store} {L : List RowRef}
    {w : Patch} {b : Run} (h : Kept name options C L w b) (hagree : db.Agree L C C') :
    Kept name options C' L w b :=
  ⟨(agree_run hagree h.locked).trans h.stored, h.name, h.key, h.keyed, h.locked, h.patch⟩

theorem Inserted.agree {C C' : Store} {L : List RowRef} {w : Patch} {r : Run}
    (h : Inserted C L w r) (hocc : r.occurrence = none) (hagree : db.Agree L C C') :
    Inserted C' L w r := by
  obtain ⟨hfresh, -, hkey⟩ := agree_insert hagree h.locked h.fresh
    (fun k hk => absurd (hk.symm.trans hocc) (by simp)) h.key
  exact ⟨hfresh, hkey, h.locked, h.patch⟩

variable {ι : Type} [DecidableEq ι] {y y' : Sessions K ι} {ls : List (ι × Act (Call K) Env)} {i : ι}

end PgTaskScheduler
