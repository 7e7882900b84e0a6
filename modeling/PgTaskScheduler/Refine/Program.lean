import PgTaskScheduler.Refine.Claim
import PgTaskScheduler.Refine.Jobs

/-!
# Every operation refines the lifecycle

`program_good` collects the operations. Run alone, an operation keeps the invariant and makes one
transition, or none (`exec_transition`); `materialize_due_jobs` makes one for every schedule it
handles, which for each run add up to one change.
-/

namespace PgTaskScheduler

open Tables ReadCommitted

variable {K : Croner} {Ok : Env → Prop} {s : Store}

theorem program_good (c : Call K) (hs : Inv s) :
    (program K c).Good db Inv Ok (Effect Ok c) Consistent [] [] [] s := by
  have hmap : ∀ {α : Type} {f : α → Answer K} {T : List Store → Store → Store → Prop}
      {p : Program α}, (∀ rs C C', Inv C → T rs C C' → Effect Ok c rs C C') →
      p.Good db Inv Ok T Consistent [] [] [] s →
      (p.map f).Good db Inv Ok (Effect Ok c) Consistent [] [] [] s := fun {α f T p} hT h =>
    Prog.Good.map f (h.mono hT fun a ha => ha.map f)
  have hcommits : ¬ c.Materializes → ∀ rs C C', Inv C → Commits Ok c rs C C' →
      Effect Ok c rs C C' := fun hc rs C C' _ h => ⟨h, fun h' => absurd h' hc⟩
  have hround : c.Materializes → ∀ rs C C', Inv C → Round K Ok rs C C' → Effect Ok c rs C C' :=
    fun hc rs C C' hC h => ⟨h.transition hC hc, fun _ => h⟩
  cases c with
  | enqueue taskName args options => exact hmap (hcommits id) enqueue_good
  | cancel id => exact hmap (hcommits nofun) cancel_good
  | pruneTerminal before limit => exact hmap (hcommits nofun) pruneTerminal_good
  | claimBatch worker names limit => exact hmap (hcommits nofun) claimBatch_good
  | finalizeRun id token outcome => exact hmap (hcommits nofun) finalizeRun_good
  | failRun id token error retryable => exact hmap (hcommits nofun) failRun_good
  | renewLease id token => exact hmap (hcommits nofun) renewLease_good
  | recoverExpired limit => exact hmap (hcommits nofun) recoverExpired_good
  | materializeOne => exact hmap (hround trivial) materializeOne_good
  | materializeDueJobs => exact hmap (hround trivial) (materializeLoop_good 100 0 s hs)
  | createJob spec => exact hmap (hcommits nofun) createJob_good
  | ensureJob spec => exact hmap (hcommits nofun) ensureJob_good
  | reschedule id update => exact hmap (hcommits nofun) reschedule_good
  | pause id => exact hmap (hcommits nofun) (setPaused_good fun env j hOk hid => .paused hOk hid)
  | resume id => exact hmap (hcommits nofun) (setPaused_good fun env j hOk hid => .resumed hOk hid)
  | delete id => exact hmap (hcommits nofun) deleteJob_good

/-! ## One transaction that writes -/

/-- A statement that writes nothing, followed by a program that writes nothing. -/
theorem quiet_readQuery {α β : Type} {run : Env → Store → Except DbError β} {k : β → Program α}
    (hk : ∀ b, (k b).Quiet db) : (Prog.stmt (readQuery run) k).Quiet db := by
  refine ⟨fun env snap cur w b h C => ?_, hk⟩
  obtain ⟨rfl, -⟩ := readQuery_ok h
  exact C.apply_empty

theorem finalizeRun_once {id : RunId} {token : LeaseToken} {outcome : Outcome} :
    (finalizeRun id token outcome).Once db := by
  rintro (_ | _)
  · exact fun _ => trivial
  · intro n
    dsimp only
    split_ifs <;> trivial

theorem failRun_once {id : RunId} {token : LeaseToken} {error : String} {retryable : Bool} :
    (failRun id token error retryable).Once db := by
  rintro (_ | ⟨state, t⟩)
  · exact fun _ => trivial
  · intro n
    dsimp only
    split_ifs
    · trivial
    · cases state <;> trivial

theorem renewLease_once {id : RunId} {token : LeaseToken} : (renewLease id token).Once db := by
  rintro (_ | _)
  · exact trivial
  · intro n
    dsimp only
    split_ifs <;> trivial

theorem cancel_once {id : RunId} : (cancel id).Once db := by
  intro changed
  show Prog.Quiet db _
  split_ifs
  · exact trivial
  · exact quiet_readQuery fun _ => trivial

theorem enqueue_once {taskName : String} {args : Except String Json} {options : EnqueueOptions} :
    (enqueue taskName args options).Once db := by
  unfold enqueue
  split
  · trivial
  · trivial
  · exact fun id => quiet_readQuery fun _ => trivial

theorem moveCursor_once {id : JobId} {next dbNow : DateTime} :
    (moveCursor K id next dbNow).Once db := by
  intro rows
  dsimp only
  rcases mapRows LoadedJob.read rows with e | _ | ⟨loaded, rest⟩ <;> trivial

theorem materializeOne_once : (materializeOne K).Once db := by
  rintro (_ | job)
  · exact trivial
  · dsimp only
    rcases CronExpression.parse K job.cronExpression with e | cron
    · exact fun _ => trivial
    · dsimp only
      rcases cron.nextAfter job.dbNow with e | next
      · exact trivial
      · exact fun _ _ => trivial

/-- Only `materialize_due_jobs` writes in more than one transaction. -/
theorem program_once {c : Call K} (hc : c ≠ .materializeDueJobs) : (program K c).Once db := by
  cases c with
  | materializeDueJobs => exact absurd rfl hc
  | enqueue taskName args options => exact enqueue_once.map db _
  | cancel id => exact cancel_once.map db _
  | finalizeRun id token outcome => exact finalizeRun_once.map db _
  | failRun id token error retryable => exact failRun_once.map db _
  | renewLease id token => exact renewLease_once.map db _
  | materializeOne => exact materializeOne_once.map db _
  | pruneTerminal before limit =>
    refine Prog.Once.map db _ ?_
    unfold pruneTerminal
    split_ifs
    · trivial
    · exact fun _ => trivial
  | claimBatch worker names limit =>
    refine Prog.Once.map db _ ?_
    unfold claimBatch
    split_ifs
    · trivial
    · exact fun _ => trivial
  | recoverExpired limit =>
    refine Prog.Once.map db _ ?_
    unfold recoverExpired
    split_ifs
    · trivial
    · exact fun _ => trivial
  | createJob spec =>
    refine Prog.Once.map db _ fun dbNow => ?_
    dsimp only
    rcases newJob spec dbNow with e | row
    · trivial
    · exact fun _ => trivial
  | ensureJob spec =>
    refine Prog.Once.map db _ fun dbNow => ?_
    dsimp only
    rcases newJob spec dbNow with e | row
    · trivial
    · exact fun _ => trivial
  | reschedule id update =>
    refine Prog.Once.map db _ fun dbNow => ?_
    cases update with
    | setNextRunAt t => exact moveCursor_once
    | resetFromNow =>
      rintro (_ | source)
      · trivial
      · dsimp only
        rcases CronExpression.parseStored K id source with e | cron
        · trivial
        · dsimp only
          rcases cron.nextAfter dbNow with e | next
          · trivial
          · exact moveCursor_once
  | pause id => exact fun _ => trivial
  | resume id => exact fun _ => trivial
  | delete id => exact fun _ => trivial

/-! ## An operation run alone -/

/-- The rounds of `materialize_due_jobs` add up to one change of each run. -/
theorem change_of_rounds {c : Call K} {s' : Store} (hc : c.Materializes)
    (h : Relation.ReflTransGen (Alone (Effect Ok c)) s s') (id : RunId) :
    s'.view id = s.view id ∨ s.view id = ⟨none, []⟩ ∧ ∃ env job, Ok env ∧
      s'.view id = ⟨some (materializedRun env job), []⟩ := by
  induction h with
  | refl => exact Or.inl rfl
  | tail _ hstep ih =>
    obtain ⟨rs, -, heffect⟩ := hstep
    have hchange := heffect.transition.runs id
    generalize hv : (Store.view _ id) = v at hchange ih
    generalize hv' : (Store.view _ id) = v' at hchange
    cases hchange with
    | same => exact ih
    | materialized hOk =>
      refine Or.inr ⟨?_, _, _, hOk, rfl⟩
      rcases ih with ih | ⟨-, env, job, -, ih⟩
      · exact ih.symm
      · exact nomatch ih
    | _ => exact False.elim hc

section Exec

variable {c : Call K} {env : ℕ → Env}

theorem exec_good (hs : Inv s) (hOk : ∀ n, Ok (env n)) :
    Consistent ((program K c).exec db env s s).1 ∧ Inv ((program K c).exec db env s s).2 ∧
      Relation.ReflTransGen (Alone (Effect Ok c)) s ((program K c).exec db env s s).2 :=
  @Prog.Good.exec _ _ _ _ _ _ _ _ _ _ _ _ _ [] [] [] s (program_good c hs) hs (by simp) env hOk

/-- Whatever an operation reads, it keeps the invariant and its own checks do not fail. -/
theorem exec_free (c : Call K) (env : ℕ → Env) (hs : Inv s) :
    Consistent ((program K c).exec db env s s).1 ∧ Inv ((program K c).exec db env s s).2 := by
  have hOk : ∀ n, (fun _ : Env => True) (env n) := fun _ => trivial
  obtain ⟨hanswer, hinv, -⟩ := @exec_good K (fun _ => True) s c env hs hOk
  exact ⟨hanswer, hinv⟩

/-- One transaction, or none. -/
theorem exec_effect (hs : Inv s) (hOk : ∀ n, Ok (env n)) (hc : c ≠ .materializeDueJobs) :
    ((program K c).exec db env s s).2 = s ∨
      Alone (Effect Ok c) s ((program K c).exec db env s s).2 :=
  @Prog.Good.exec_once _ _ _ _ _ _ _ _ _ _ _ _ _ [] [] [] s (program_good c hs) (program_once hc) hs
    (by simp) env hOk

/-- **Every operation changes every run by one of the listed changes.** -/
theorem exec_change (hs : Inv s) (hOk : ∀ n, Ok (env n)) (id : RunId) :
    Change Ok c (s.view id) ((((program K c).exec db env s s).2).view id) := by
  by_cases hc : c = .materializeDueJobs
  · have hm : c.Materializes := by
      rw [hc]
      trivial
    have hgood := exec_good (c := c) hs hOk
    rcases change_of_rounds hm hgood.2.2 id with h | ⟨h, env', job, hOk', h'⟩
    · rw [h]
      exact .same _ _
    · rw [h, h']
      exact .materialized hOk' hm
  · rcases exec_effect hs hOk hc with h | ⟨rs, -, h⟩
    · rw [h]
      exact .same _ _
    · exact h.transition.runs id

end Exec

end PgTaskScheduler
