import PgTaskScheduler.Lifecycle

/-!
# The store invariant

`Inv` is what every committed store satisfies: the constraints of the migration, and the coupling
of every run to its attempts. A patch fits a store under a set of locks when the constraints accept
it and every row and index entry it touches is locked, an attempt through the row of its run. A
fitting patch keeps the constraints (`Patch.Fits.constraints`) and changes nothing that is not
locked (`Patch.Fits.frame`).
-/

namespace PgTaskScheduler

open Tables ReadCommitted

/-! ## The invariant -/

/-- Keys, unique indexes and CHECKs. -/
structure Constraints (s : Store) : Prop where
  jobIds : Keyed SchedulerJob.id s.jobs
  jobNames : UniqueIndex (fun j => some (SchedulerJob.name j)) s.jobs
  runIds : Keyed Run.id s.runs
  occurrences : UniqueIndex Run.occurrence s.runs
  deduplications : UniqueIndex Run.deduplication s.runs
  tokens : Keyed Attempt.leaseToken s.attempts
  jobsValid : ∀ j ∈ s.jobs, j.check = .ok ()
  runsValid : ∀ r ∈ s.runs, r.check = .ok ()
  attemptsValid : ∀ a ∈ s.attempts, a.check = .ok ()

structure Inv (s : Store) : Prop extends Constraints s where
  coupled : ∀ id, Coupled (s.view id)

theorem Inv.empty : Inv .empty where
  jobIds := List.nodup_nil
  jobNames := List.nodup_nil
  runIds := List.nodup_nil
  occurrences := List.nodup_nil
  deduplications := List.nodup_nil
  tokens := List.nodup_nil
  jobsValid _ hj := nomatch hj
  runsValid _ hr := nomatch hr
  attemptsValid _ ha := nomatch ha
  coupled _ := Coupled.empty

theorem Store.view_run (s : Store) (id : RunId) : (s.view id).run = lookup Run.id id s.runs := rfl

theorem Store.mem_view_attempts {s : Store} {id : RunId} {a : Attempt} :
    a ∈ (s.view id).attempts ↔ a ∈ s.attempts ∧ a.runId = id := by
  simp [view]

theorem Store.view_eq_some {s : Store} {id : RunId} {r : Run}
    (h : lookup Run.id id s.runs = some r) : s.view id = ⟨some r, (s.view id).attempts⟩ := by
  rw [← h]
  rfl

/-- The primary key of `scheduler_run_attempts`. -/
theorem Inv.attemptKeys {s : Store} (h : Inv s) : Keyed Attempt.key s.attempts := by
  refine List.Nodup.map_on (fun a ha b hb he => ?_) (List.Nodup.of_map _ h.tokens)
  have hid : a.runId = b.runId := congrArg Prod.fst he
  exact eq_of_key (h.coupled b.runId).keyed (Store.mem_view_attempts.mpr ⟨ha, hid⟩)
    (Store.mem_view_attempts.mpr ⟨hb, rfl⟩) he

/-- The open attempt of a running run. -/
theorem Inv.exists_open {s : Store} (h : Inv s) {r : Run} (hr : r ∈ s.runs)
    (hs : r.state = .running) :
    ∃ prev a, s.view r.id = ⟨some r, prev ++ [a]⟩ ∧ (∀ b ∈ prev, b.isOpen = false) ∧
      Mirrors r a ∧ a ∈ s.attempts ∧ a.runId = r.id := by
  have hl : lookup Run.id r.id s.runs = some r := lookup_of_mem h.runIds hr
  have hc := h.coupled r.id
  obtain ⟨prev, a, he, hprev, hm⟩ := hc.live r hl hs
  have hmem : a ∈ (s.view r.id).attempts := by
    rw [he]
    simp
  obtain ⟨ha, hid⟩ := Store.mem_view_attempts.mp hmem
  exact ⟨prev, a, by rw [← he]; exact Store.view_eq_some hl, hprev, hm, ha, hid⟩

/-- The token of a running run leads to its own open attempt and to no other. -/
theorem Inv.attempt_of_token {s : Store} (h : Inv s) {r : Run} {a : Attempt} (hr : r ∈ s.runs)
    (hs : r.state = .running) (ha : a ∈ s.attempts) (ht : r.leaseToken = some a.leaseToken) :
    ∃ prev, s.view r.id = ⟨some r, prev ++ [a]⟩ ∧ a.isOpen ∧ a.runId = r.id := by
  obtain ⟨prev, b, hview, -, hm, hb, hid⟩ := h.exists_open hr hs
  obtain rfl : a = b := eq_of_key h.tokens ha hb (Option.some.inj (ht.symm.trans hm.token))
  exact ⟨prev, hview, hm.isOpen, hid⟩

/-- Rewriting the run row and its last attempt, among whatever else the patch writes. -/
theorem Patch.onView_rewrite {w : Patch} {id : RunId} {v : RunView} {r r' : Run}
    {prev : List Attempt} {a a' : Attempt} (hv : Coupled v) (hview : v = ⟨some r, prev ++ [a]⟩)
    (hids : ∀ b ∈ v.attempts, b.runId = id) (hdelete : id ∉ w.runs.delete)
    (hinsert : w.insertAttempts = []) (hr : lookup Run.id id w.runs.update = some r')
    (hmem : a' ∈ w.updateAttempts) (hkey : a'.key = a.key)
    (hone : ∀ b ∈ w.updateAttempts, b.runId = id → b = a') :
    w.onView id v = ⟨some r', prev ++ [a']⟩ := by
  subst hview
  have hoverwrite : overwrite Attempt.key w.updateAttempts (prev ++ [a]) = prev ++ [a'] := by
    rw [@overwrite_congr _ _ _ _ w.updateAttempts _ [a'], overwrite_last hv.keyed hkey]
    intro b hb
    rw [lookup_cons, lookup_nil]
    split_ifs with hb'
    · obtain ⟨x, hx⟩ := Option.isSome_iff_exists.mp
        (lookup_isSome_iff.mpr ⟨a', hmem, hb'⟩ : (lookup Attempt.key b.key w.updateAttempts).isSome)
      have hid : x.runId = id := (congrArg Prod.fst (key_of_lookup hx)).trans (hids b hb)
      rw [hx, hone x (mem_of_lookup hx) hid]
    · refine lookup_eq_none_iff.mpr fun x hx he => hb' ?_
      rw [← hone x hx ((congrArg Prod.fst he).trans (hids b hb)), he]
  simp [Patch.onView, hdelete, hinsert, hr, hoverwrite]

/-! ## Fitting patches -/

/-- The patch passes the constraints of the store and touches locked rows only. -/
structure Patch.Fits (w : Patch) (L : List RowRef) (s : Store) : Prop where
  jobsUpdate : ∀ j ∈ w.jobs.update, RowRef.job j.id ∈ L ∧ j.check = .ok () ∧
    ∀ j₀ ∈ s.jobs, j₀.id = j.id → j.name = j₀.name
  jobsInsert : ∀ j ∈ w.jobs.insert, j.refs ⊆ L ∧ j.check = .ok () ∧
    ∀ j₀ ∈ s.jobs, j₀.id ≠ j.id ∧ j₀.name ≠ j.name
  jobsOne : w.jobs.insert.length ≤ 1
  jobsDelete : ∀ j ∈ s.jobs, j.id ∈ w.jobs.delete → j.refs ⊆ L
  runsUpdate : ∀ r ∈ w.runs.update, RowRef.run r.id ∈ L ∧ r.check = .ok () ∧
    ∀ r₀ ∈ s.runs, r₀.id = r.id → r.occurrence = r₀.occurrence ∧
      r.deduplication = r₀.deduplication
  runsInsert : ∀ r ∈ w.runs.insert, r.refs ⊆ L ∧ r.check = .ok () ∧
    ∀ r₀ ∈ s.runs, r₀.id ≠ r.id ∧ (∀ k, r.occurrence = some k → r₀.occurrence ≠ some k) ∧
      ∀ k, r.deduplication = some k → r₀.deduplication ≠ some k
  runsOne : w.runs.insert.length ≤ 1
  runsDelete : ∀ r ∈ s.runs, r.id ∈ w.runs.delete → r.refs ⊆ L
  attemptsUpdate : ∀ a ∈ w.updateAttempts, RowRef.run a.runId ∈ L ∧ a.check = .ok () ∧
    ∀ a₀ ∈ s.attempts, a₀.key = a.key → a.leaseToken = a₀.leaseToken
  attemptsInsert : ∀ a ∈ w.insertAttempts, RowRef.run a.runId ∈ L ∧ .token a.leaseToken ∈ L ∧
    a.check = .ok () ∧ ∀ a₀ ∈ s.attempts, a₀.leaseToken ≠ a.leaseToken
  attemptsKeyed : Keyed Attempt.leaseToken w.insertAttempts
  attemptsDelete : ∀ a ∈ s.attempts, a.runId ∈ w.runs.delete → RowRef.run a.runId ∈ L ∧
    .token a.leaseToken ∈ L

theorem keyed_of_length_le_one {α κ : Type} {key : α → κ} {t : List α} (h : t.length ≤ 1) :
    Keyed key t := by
  match t, h with
  | [], _ => exact List.nodup_nil
  | [a], _ => exact List.nodup_singleton _

theorem unique_of_length_le_one {α ι : Type} {u : α → Option ι} {t : List α}
    (h : t.length ≤ 1) : UniqueIndex u t := by
  match t, h with
  | [], _ => exact List.nodup_nil
  | [a], _ => unfold UniqueIndex; rcases hu : u a with _ | i <;> simp [hu]

section Fits

variable {w : Patch} {L : List RowRef} {s : Store}

theorem Store.mem_apply_attempts {a : Attempt} (h : a ∈ (s.apply w).attempts) :
    a ∈ s.attempts ∨ a ∈ w.insertAttempts ∨
      a ∈ w.updateAttempts ∧ ∃ a₀ ∈ s.attempts, a₀.key = a.key := by
  simp only [apply, List.mem_filter, List.mem_append] at h
  rcases h.1 with h | h
  · exact (mem_overwrite h).imp_right Or.inr
  · exact Or.inr (Or.inl h)

theorem Patch.Fits.tokens_overwrite (h : w.Fits L s) :
    (overwrite Attempt.key w.updateAttempts s.attempts).map (fun a => (a.key, a.leaseToken)) =
      s.attempts.map fun a => (a.key, a.leaseToken) :=
  map_overwrite fun b hb a ha hk => by rw [(h.attemptsUpdate b hb).2.2 a ha hk, hk]

theorem Patch.Fits.constraints (h : w.Fits L s) (hs : Constraints s) :
    Constraints (s.apply w) where
  jobIds := hs.jobIds.apply ⟨keyed_of_length_le_one h.jobsOne,
    fun j hj j₀ hj₀ => ((h.jobsInsert j hj).2.2 j₀ hj₀).1⟩
  jobNames := hs.jobNames.apply
    (fun j hj j₀ hj₀ hk => congrArg some ((h.jobsUpdate j hj).2.2 j₀ hj₀ hk))
    (unique_of_length_le_one h.jobsOne)
    (fun j hj j₀ hj₀ n hn hn' => ((h.jobsInsert j hj).2.2 j₀ hj₀).2
      (Option.some.inj (hn'.trans hn.symm)))
  runIds := hs.runIds.apply ⟨keyed_of_length_le_one h.runsOne,
    fun r hr r₀ hr₀ => ((h.runsInsert r hr).2.2 r₀ hr₀).1⟩
  occurrences := hs.occurrences.apply
    (fun r hr r₀ hr₀ hk => ((h.runsUpdate r hr).2.2 r₀ hr₀ hk).1)
    (unique_of_length_le_one h.runsOne)
    (fun r hr r₀ hr₀ k hk => ((h.runsInsert r hr).2.2 r₀ hr₀).2.1 k hk)
  deduplications := hs.deduplications.apply
    (fun r hr r₀ hr₀ hk => ((h.runsUpdate r hr).2.2 r₀ hr₀ hk).2)
    (unique_of_length_le_one h.runsOne)
    (fun r hr r₀ hr₀ k hk => ((h.runsInsert r hr).2.2 r₀ hr₀).2.2 k hk)
  tokens := by
    refine Keyed.filter ?_ _
    have hmap := congrArg (List.map Prod.snd) h.tokens_overwrite
    simp only [List.map_map] at hmap
    unfold Keyed
    rw [List.map_append]
    refine List.Nodup.append (hmap ▸ hs.tokens) h.attemptsKeyed fun t ht ht' => ?_
    obtain ⟨b, hb, rfl⟩ := List.mem_map.mp ht'
    have ht : b.leaseToken ∈ s.attempts.map Attempt.leaseToken := hmap ▸ ht
    obtain ⟨a, ha, hab⟩ := List.mem_map.mp ht
    exact (h.attemptsInsert b hb).2.2.2 a ha hab
  jobsValid j hj := by
    rcases Edit.mem_apply hj with hj | hj | ⟨hj, -⟩
    · exact hs.jobsValid j hj
    · exact (h.jobsInsert j hj).2.1
    · exact (h.jobsUpdate j hj).2.1
  runsValid r hr := by
    rcases Edit.mem_apply hr with hr | hr | ⟨hr, -⟩
    · exact hs.runsValid r hr
    · exact (h.runsInsert r hr).2.1
    · exact (h.runsUpdate r hr).2.1
  attemptsValid a ha := by
    rcases Store.mem_apply_attempts ha with ha | ha | ⟨ha, -⟩
    · exact hs.attemptsValid a ha
    · exact (h.attemptsInsert a ha).2.2.1
    · exact (h.attemptsUpdate a ha).2.1

/-! ## What a fitting patch leaves alone -/

/-- A run that is not locked keeps its row and its attempts. -/
theorem Patch.Fits.view (h : w.Fits L s) (hs : Inv s) {id : RunId} (hid : RowRef.run id ∉ L) :
    (s.apply w).view id = s.view id := by
  rw [Store.view_apply]
  by_cases hd : id ∈ w.runs.delete
  · -- a deleted run was locked, so there was none
    have hrun : lookup Run.id id s.runs = none := lookup_eq_none_iff.mpr fun r hr he =>
      hid (he ▸ h.runsDelete r hr (he ▸ hd) List.mem_cons_self)
    rw [Patch.onView, if_pos hd]
    exact (congrArg₂ RunView.mk hrun ((hs.coupled id).orphan hrun)).symm
  · refine Patch.onView_of_untouched (fun a ha => (Store.mem_view_attempts.mp ha).2) hd ?_ ?_ ?_ ?_
    · exact fun r hr he => hid (he ▸ (h.runsUpdate r hr).1)
    · exact fun r hr he => hid (he ▸ (h.runsInsert r hr).1 List.mem_cons_self)
    · exact fun a ha he => hid (he ▸ (h.attemptsUpdate a ha).1)
    · exact fun a ha he => hid (he ▸ (h.attemptsInsert a ha).1)

/-- **Nothing changes that is not locked.** -/
theorem Patch.Fits.frame (h : w.Fits L s) (hs : Inv s) {ref : RowRef} (href : ref ∉ L) :
    s.rowView ref = (s.apply w).rowView ref := by
  cases ref with
  | attempt k => rfl
  | run id => exact congrArg RowView.run (h.view hs href).symm
  | job id =>
    refine congrArg RowView.job ?_
    have hupdate : lookup SchedulerJob.id id w.jobs.update = none :=
      lookup_eq_none_iff.mpr fun j hj he => href (he ▸ (h.jobsUpdate j hj).1)
    have hinsert : lookup SchedulerJob.id id w.jobs.insert = none :=
      lookup_eq_none_iff.mpr fun j hj he => href (he ▸ (h.jobsInsert j hj).1 List.mem_cons_self)
    show _ = lookup SchedulerJob.id id (w.jobs.apply SchedulerJob.id s.jobs)
    rw [Edit.lookup_apply, hupdate, hinsert]
    split_ifs with hd
    · exact lookup_eq_none_iff.mpr fun j hj he =>
        href (he ▸ h.jobsDelete j hj (he ▸ hd) List.mem_cons_self)
    · simp
  | jobName n =>
    refine congrArg RowView.entry ?_
    have hany : ((w.jobs.apply SchedulerJob.id s.jobs).any fun j => some j.name = some n) =
        s.jobs.any fun j => some j.name = some n := Edit.any_apply (u := fun j => some j.name)
      (fun j hj j₀ hj₀ hk => congrArg some ((h.jobsUpdate j hj).2.2 j₀ hj₀ hk))
      (fun j hj he => href (by
        rw [← Option.some.inj he]
        exact (h.jobsInsert j hj).1 (by simp [SchedulerJob.refs])))
      (fun j hj hd he => href (by
        rw [← Option.some.inj he]
        exact h.jobsDelete j hj hd (by simp [SchedulerJob.refs])))
    simpa [Store.apply] using hany.symm
  | occurrence k =>
    refine congrArg RowView.entry (Edit.any_apply
      (fun r hr r₀ hr₀ hk => ((h.runsUpdate r hr).2.2 r₀ hr₀ hk).1) ?_ ?_).symm
    · exact fun r hr he => href ((h.runsInsert r hr).1 (by simp [Run.refs, he]))
    · exact fun r hr hd he => href (h.runsDelete r hr hd (by simp [Run.refs, he]))
  | deduplication k =>
    refine congrArg RowView.entry (Edit.any_apply
      (fun r hr r₀ hr₀ hk => ((h.runsUpdate r hr).2.2 r₀ hr₀ hk).2) ?_ ?_).symm
    · exact fun r hr he => href ((h.runsInsert r hr).1 (by simp [Run.refs, he]))
    · exact fun r hr hd he => href (h.runsDelete r hr hd (by simp [Run.refs, he]))
  | token t =>
    refine congrArg RowView.entry ?_
    rw [Bool.eq_iff_iff]
    simp only [List.any_eq_true, decide_eq_true_eq, Store.apply, List.mem_filter, List.mem_append]
    constructor
    · rintro ⟨a, ha, hat⟩
      have hmem : (a.key, a.leaseToken) ∈ (overwrite Attempt.key w.updateAttempts s.attempts).map
          fun a => (a.key, a.leaseToken) := by
        rw [h.tokens_overwrite]
        exact List.mem_map_of_mem (f := fun a : Attempt => (a.key, a.leaseToken)) ha
      obtain ⟨b, hb, he⟩ := List.mem_map.mp hmem
      obtain ⟨hk, ht⟩ := Prod.mk.inj he
      refine ⟨b, ⟨Or.inl hb, fun hd => href ?_⟩, ht.trans hat⟩
      have hrun : b.runId = a.runId := congrArg Prod.fst hk
      rw [← hat]
      exact (h.attemptsDelete a ha (hrun ▸ hd)).2
    · rintro ⟨b, ⟨hb | hb, -⟩, hbt⟩
      · have hmem : (b.key, b.leaseToken) ∈ s.attempts.map fun a => (a.key, a.leaseToken) := by
          rw [← h.tokens_overwrite]
          exact List.mem_map_of_mem (f := fun a : Attempt => (a.key, a.leaseToken)) hb
        obtain ⟨a, ha, he⟩ := List.mem_map.mp hmem
        exact ⟨a, ha, (congrArg Prod.snd he).trans hbt⟩
      · exact absurd (hbt ▸ (h.attemptsInsert b hb).2.1) href

end Fits

end PgTaskScheduler
