import Mathlib.Data.Fintype.Defs
import Mathlib.Logic.Function.Basic
import Mathlib.Logic.Relation
import Mathlib.Data.Nat.Notation

/-!
# Transactions under READ COMMITTED with row locks

A statement computes its writes from two stores: the snapshot taken when it started, and the
newest committed rows (with the writes of its own transaction), which locked rows are re-read
from. A program is a sequence of statements and commits.

The same program has two meanings. `Prog.exec` runs it alone. In a `System` any number of sessions
run programs statement by statement; a session keeps its writes to itself until it commits and
holds its row locks until then.

`Prog.Good` is a proof rule in the rely/guarantee style: a program is good when each of its
commits, made on any store that agrees with the one it read on the rows it holds locked, is a step
of the relation `T` and keeps the invariant `I`. A good program keeps `I` when it runs alone
(`Good.exec`) and in every interleaving (`Sound.run`), because other sessions only change rows that
they hold locked themselves.
-/

namespace ReadCommitted

/-- How writes act on a store, which rows and index entries a write locks, and the part of the
store that a lock protects. -/
structure Storage (S W R V : Type) where
  apply : W → S → S
  locked : S → W → List R
  view : R → S → V

/-- One statement: what it writes and answers from the snapshot and the newest rows, the rows of
the snapshot it waits for, and the rows it locks without writing them. -/
structure Stmt (S W R E X β : Type) where
  run : E → S → S → Except X (W × β)
  waits : E → S → List R
  locks : E → S → S → List R

/-- A program: statements whose answers choose what follows, and commits. What a program has
written and not committed when it returns is rolled back. -/
inductive Prog (S W R E X α : Type) : Type 1
  | ret (a : Except X α)
  | stmt {β : Type} (s : Stmt S W R E X β) (k : β → Prog S W R E X α)
  | commit (k : Prog S W R E X α)

variable {S W R V E X α β : Type} (D : Storage S W R V)

/-- Change the answer of a program. -/
def Prog.map (f : α → β) : Prog S W R E X α → Prog S W R E X β
  | .ret a => .ret (a.map f)
  | .stmt s k => .stmt s fun b => (k b).map f
  | .commit k => .commit (k.map f)

/-- The writes of a transaction, in order. -/
def Storage.applyAll (ws : List W) (s : S) : S := ws.foldl (fun s w => D.apply w s) s

@[simp] theorem Storage.applyAll_nil (s : S) : D.applyAll [] s = s := rfl

@[simp] theorem Storage.applyAll_cons (w : W) (ws : List W) (s : S) :
    D.applyAll (w :: ws) s = D.applyAll ws (D.apply w s) := rfl

@[simp] theorem Storage.applyAll_snoc (ws : List W) (w : W) (s : S) :
    D.applyAll (ws ++ [w]) s = D.apply w (D.applyAll ws s) := by
  simp [Storage.applyAll]

/-- Two stores agree on what the locks `L` protect. -/
def Storage.Agree (L : List R) (C C' : S) : Prop := ∀ r ∈ L, D.view r C = D.view r C'

theorem Storage.Agree.refl (L : List R) (C : S) : D.Agree L C C := fun _ _ => rfl

variable {D}

theorem Storage.Agree.symm {L : List R} {C C' : S} (h : D.Agree L C C') : D.Agree L C' C :=
  fun r hr => (h r hr).symm

theorem Storage.Agree.trans {L : List R} {C C' C'' : S} (h : D.Agree L C C')
    (h' : D.Agree L C' C'') : D.Agree L C C'' :=
  fun r hr => (h r hr).trans (h' r hr)

theorem Storage.Agree.left {L L' : List R} {C C' : S} (h : D.Agree (L ++ L') C C') :
    D.Agree L C C' := fun r hr => h r (List.mem_append_left _ hr)

theorem Storage.Agree.right {L L' : List R} {C C' : S} (h : D.Agree (L ++ L') C C') :
    D.Agree L' C C' := fun r hr => h r (List.mem_append_right _ hr)

variable (D)

/-- The locks a statement takes. -/
def Stmt.acquires (s : Stmt S W R E X β) (env : E) (snap cur : S) (w : W) : List R :=
  D.locked cur w ++ s.locks env snap cur

/-! ## A program run alone -/

/-- Run a program with no other session: `base` is the committed store, `cur` the store as the open
transaction sees it; every commit moves on to the next environment. -/
def Prog.exec : (ℕ → E) → Prog S W R E X α → S → S → Except X α × S
  | _, .ret a, base, _ => (a, base)
  | env, .stmt s k, base, cur =>
    match s.run (env 0) cur cur with
    | .error e => (.error e, base)
    | .ok (w, b) => (k b).exec env base (D.apply w cur)
  | env, .commit k, _, cur => k.exec (fun n => env (n + 1)) cur cur

section Exec

variable {D} {s : Stmt S W R E X β} {k : β → Prog S W R E X α} {env : ℕ → E} {base cur : S}

theorem Prog.exec_stmt_ok {w : W} {b : β} (h : s.run (env 0) cur cur = .ok (w, b)) :
    (Prog.stmt s k).exec D env base cur = (k b).exec D env base (D.apply w cur) := by
  rw [Prog.exec, h]

theorem Prog.exec_stmt_error {e : X} (h : s.run (env 0) cur cur = .error e) :
    (Prog.stmt s k).exec D env base cur = (.error e, base) := by
  rw [Prog.exec, h]

/-- The answer of a mapped program is the mapped answer. -/
theorem Prog.exec_map (f : α → β) (p : Prog S W R E X α) :
    ∀ (env : ℕ → E) (base cur : S), (p.map f).exec D env base cur =
      ((p.exec D env base cur).1.map f, (p.exec D env base cur).2) := by
  induction p with
  | ret a => exact fun _ _ _ => rfl
  | stmt s k ih =>
    intro env base cur
    rcases h : s.run (env 0) cur cur with e | ⟨w, b⟩
    · rw [Prog.exec_stmt_error h, Prog.map, Prog.exec_stmt_error h]
      rfl
    · rw [Prog.exec_stmt_ok h, Prog.map, Prog.exec_stmt_ok h]
      exact ih b env base _
  | commit k ih => exact fun env _ cur => ih (fun n => env (n + 1)) cur cur

end Exec

/-- A program that writes nothing. -/
def Prog.Quiet : Prog S W R E X α → Prop
  | .ret _ => True
  | .stmt s k =>
    (∀ env snap cur w b, s.run env snap cur = .ok (w, b) → ∀ C, D.apply w C = C) ∧
      ∀ b, (k b).Quiet
  | .commit k => k.Quiet

/-- A program without statements. -/
def Prog.Closing : Prog S W R E X α → Prop
  | .ret _ => True
  | .stmt _ _ => False
  | .commit k => k.Closing

/-- Every answer of the program satisfies `Q`, whatever its statements read. -/
def Prog.Yields (Q : Except X α → Prop) : Prog S W R E X α → Prop
  | .ret a => Q a
  | .stmt s k => ∀ env snap cur, (∀ e, s.run env snap cur = .error e → Q (.error e)) ∧
      ∀ w b, s.run env snap cur = .ok (w, b) → (k b).Yields Q
  | .commit k => k.Yields Q

/-- A program that answers a value, without another statement. -/
def Prog.Succeeds : Prog S W R E X α → Prop
  | .ret a => ∃ x, a = .ok x
  | .stmt _ _ => False
  | .commit k => k.Succeeds

/-- Once the program has committed, it answers a value. -/
def Prog.AllOrNothing : Prog S W R E X α → Prop
  | .ret _ => True
  | .stmt _ k => ∀ b, (k b).AllOrNothing
  | .commit k => k.Succeeds

/-- A program with at most one transaction that writes. -/
def Prog.Once : Prog S W R E X α → Prop
  | .ret _ => True
  | .stmt _ k => ∀ b, (k b).Once
  | .commit k => k.Quiet D

theorem Prog.Closing.map (f : α → β) {p : Prog S W R E X α} : p.Closing → (p.map f).Closing := by
  induction p with
  | ret a => exact id
  | stmt s k ih => exact False.elim
  | commit k ih => exact fun h => ih h

theorem Prog.Yields.mono {Q Q' : Except X α → Prop} (hQ : ∀ a, Q a → Q' a)
    {p : Prog S W R E X α} : p.Yields Q → p.Yields Q' := by
  induction p with
  | ret a => exact hQ a
  | stmt s k ih =>
    exact fun h env snap cur => ⟨fun e he => hQ _ ((h env snap cur).1 e he),
      fun w b hr => ih b ((h env snap cur).2 w b hr)⟩
  | commit k ih => exact fun h => ih h

theorem Prog.yields_of_forall {Q : Except X α → Prop} (hQ : ∀ a, Q a) (p : Prog S W R E X α) :
    p.Yields Q := by
  induction p with
  | ret a => exact hQ a
  | stmt s k ih => exact fun _ _ _ => ⟨fun e _ => hQ _, fun _ b _ => ih b⟩
  | commit k ih => exact ih

theorem Prog.Yields.map {Q : Except X β → Prop} (f : α → β) {p : Prog S W R E X α} :
    p.Yields (fun a => Q (a.map f)) → (p.map f).Yields Q := by
  induction p with
  | ret a => exact id
  | stmt s k ih =>
    exact fun h env snap cur => ⟨(h env snap cur).1, fun w b hr => ih b ((h env snap cur).2 w b hr)⟩
  | commit k ih => exact fun h => ih h

theorem Prog.Yields.exec {Q : Except X α → Prop} {p : Prog S W R E X α} (h : p.Yields Q)
    (env : ℕ → E) (base cur : S) : Q (p.exec D env base cur).1 := by
  induction p generalizing env base cur with
  | ret a => exact h
  | stmt s k ih =>
    rcases hr : s.run (env 0) cur cur with e | ⟨w, b⟩
    · rw [Prog.exec_stmt_error hr]
      exact (h (env 0) cur cur).1 e hr
    · rw [Prog.exec_stmt_ok hr]
      exact ih b ((h (env 0) cur cur).2 w b hr) _ _ _
  | commit k ih => exact ih h _ _ _

theorem Prog.Quiet.map (f : α → β) {p : Prog S W R E X α} : p.Quiet D → (p.map f).Quiet D := by
  induction p with
  | ret a => exact id
  | stmt s k ih => exact fun h => ⟨h.1, fun b => ih b (h.2 b)⟩
  | commit k ih => exact fun h => ih h

theorem Prog.Once.map (f : α → β) {p : Prog S W R E X α} : p.Once D → (p.map f).Once D := by
  induction p with
  | ret a => exact id
  | stmt s k ih => exact fun h b => ih b (h b)
  | commit k ih => exact fun h => Prog.Quiet.map D f h

theorem Prog.Quiet.exec {p : Prog S W R E X α} :
    p.Quiet D → ∀ (env : ℕ → E) (base : S), (p.exec D env base base).2 = base := by
  induction p with
  | ret a => intro _ env base; rfl
  | stmt s k ih =>
    rintro ⟨hs, hk⟩ env base
    rcases h : s.run (env 0) base base with e | ⟨w, b⟩
    · rw [Prog.exec_stmt_error h]
    · rw [Prog.exec_stmt_ok h, hs _ _ _ _ _ h]
      exact ih b (hk b) env base
  | commit k ih => intro hk env base; exact ih hk _ base

theorem Prog.Succeeds.exec {p : Prog S W R E X α} (h : p.Succeeds) (env : ℕ → E) (base cur : S) :
    ∃ x, (p.exec D env base cur).1 = .ok x := by
  induction p generalizing env base cur with
  | ret a => exact h
  | stmt s k ih => exact h.elim
  | commit k ih => exact ih h _ _ _

/-- A program that fails leaves the store as it was. -/
theorem Prog.AllOrNothing.exec {p : Prog S W R E X α} (h : p.AllOrNothing) {env : ℕ → E}
    {base cur : S} {e : X} (he : (p.exec D env base cur).1 = .error e) :
    (p.exec D env base cur).2 = base := by
  induction p generalizing cur with
  | ret a => rfl
  | stmt s k ih =>
    rcases hr : s.run (env 0) cur cur with e' | ⟨w, b⟩
    · rw [Prog.exec_stmt_error hr]
    · rw [Prog.exec_stmt_ok hr] at he ⊢
      exact ih b (h b) he
  | commit k ih =>
    obtain ⟨x, hx⟩ := Prog.Succeeds.exec D h (fun n => env (n + 1)) cur cur
    exact nomatch hx.symm.trans he

/-! ## The proof rule -/

/-- A program is good from the store `C`, its open transaction having read the newest rows of `rs`
and written `ws` under the locks `L`. -/
def Prog.Good (I : S → Prop) (Ok : E → Prop) (T : List S → S → S → Prop)
    (Q : Except X α → Prop) : Prog S W R E X α → List S → List W → List R → S → Prop
  | .ret a, _, _, _, _ => Q a
  | .stmt s k, rs, ws, L, C =>
    ∀ C₁ C₂, I C₁ → D.Agree L C C₁ → I C₂ → D.Agree L C C₂ → ∀ env, Ok env →
      (∀ e, s.run env (D.applyAll ws C₁) (D.applyAll ws C₂) = .error e → Q (.error e)) ∧
      ∀ w b, s.run env (D.applyAll ws C₁) (D.applyAll ws C₂) = .ok (w, b) →
        (k b).Good I Ok T Q (rs ++ [C₂]) (ws ++ [w])
          (L ++ s.acquires D env (D.applyAll ws C₁) (D.applyAll ws C₂) w) C₂
  | .commit k, rs, ws, L, C =>
    (∀ C', I C' → D.Agree L C C' → T rs C' (D.applyAll ws C') ∧ I (D.applyAll ws C') ∧
      ∀ r, r ∉ L → D.view r C' = D.view r (D.applyAll ws C')) ∧
    ∀ C', I C' → k.Good I Ok T Q [] [] [] C'

variable {D}
variable {I : S → Prop} {Ok : E → Prop} {T : List S → S → S → Prop} {Q : Except X α → Prop}

/-- What a session has read and locked stays good when others change unlocked rows. -/
theorem Prog.Good.agree {p : Prog S W R E X α} {rs : List S} {ws : List W} {L : List R} {C C' : S}
    (h : p.Good D I Ok T Q rs ws L C) (ha : D.Agree L C C') : p.Good D I Ok T Q rs ws L C' := by
  cases p with
  | ret a => exact h
  | stmt s k =>
    intro C₁ C₂ h₁ a₁ h₂ a₂
    exact h C₁ C₂ h₁ (ha.trans a₁) h₂ (ha.trans a₂)
  | commit k => exact ⟨fun C'' hI a => h.1 C'' hI (ha.trans a), h.2⟩

/-- Weakening what is said about commits and answers. -/
theorem Prog.Good.mono {T' : List S → S → S → Prop} {Q' : Except X α → Prop}
    (hT : ∀ rs C C', I C → T rs C C' → T' rs C C') (hQ : ∀ a, Q a → Q' a)
    {p : Prog S W R E X α} : ∀ {rs : List S} {ws : List W} {L : List R} {C : S},
      p.Good D I Ok T Q rs ws L C → p.Good D I Ok T' Q' rs ws L C := by
  induction p with
  | ret a => exact hQ a
  | stmt s k ih =>
    intro rs ws L C h C₁ C₂ h₁ a₁ h₂ a₂ env hOk
    obtain ⟨herr, hok⟩ := h C₁ C₂ h₁ a₁ h₂ a₂ env hOk
    exact ⟨fun e he => hQ _ (herr e he), fun w b hr => ih b (hok w b hr)⟩
  | commit k ih =>
    intro rs ws L C h
    exact ⟨fun C' hI ha => ⟨hT _ _ _ hI (h.1 C' hI ha).1, (h.1 C' hI ha).2⟩,
      fun C' hI => ih (h.2 C' hI)⟩

theorem Prog.Good.map (f : α → β) {Q' : Except X β → Prop} {p : Prog S W R E X α} :
    ∀ {rs : List S} {ws : List W} {L : List R} {C : S},
      p.Good D I Ok T (fun a => Q' (a.map f)) rs ws L C →
        (p.map f).Good D I Ok T Q' rs ws L C := by
  induction p with
  | ret a => exact id
  | stmt s k ih =>
    intro rs ws L C h C₁ C₂ h₁ a₁ h₂ a₂ env hOk
    exact ⟨(h C₁ C₂ h₁ a₁ h₂ a₂ env hOk).1,
      fun w b hr => ih b ((h C₁ C₂ h₁ a₁ h₂ a₂ env hOk).2 w b hr)⟩
  | commit k ih => exact fun h => ⟨h.1, fun C' hI => ih (h.2 C' hI)⟩

/-- A step of `T` by a transaction that has read no other store. -/
def Alone (T : List S → S → S → Prop) (C C' : S) : Prop := ∃ rs, (∀ C₀ ∈ rs, C₀ = C) ∧ T rs C C'

/-- A good program run alone answers within `Q`, keeps `I` and moves by steps of `T`. -/
theorem Prog.Good.exec {p : Prog S W R E X α} :
    ∀ {rs : List S} {ws : List W} {L : List R} {C : S}, p.Good D I Ok T Q rs ws L C → I C →
      (∀ C₀ ∈ rs, C₀ = C) → ∀ env : ℕ → E, (∀ n, Ok (env n)) →
        Q (p.exec D env C (D.applyAll ws C)).1 ∧ I (p.exec D env C (D.applyAll ws C)).2 ∧
          Relation.ReflTransGen (Alone T) C (p.exec D env C (D.applyAll ws C)).2 := by
  induction p with
  | ret a => intro rs ws L C h hI _ env _; exact ⟨h, hI, .refl⟩
  | stmt s k ih =>
    intro rs ws L C h hI hrs env hOk
    obtain ⟨herr, hok⟩ := h C C hI (.refl D L C) hI (.refl D L C) (env 0) (hOk 0)
    rcases hr : s.run (env 0) (D.applyAll ws C) (D.applyAll ws C) with e | ⟨w, b⟩
    · rw [Prog.exec_stmt_error hr]
      exact ⟨herr e hr, hI, .refl⟩
    · rw [Prog.exec_stmt_ok hr, ← Storage.applyAll_snoc]
      refine ih b (hok w b hr) hI (fun C₀ hC₀ => ?_) env hOk
      rcases List.mem_append.mp hC₀ with hC₀ | hC₀
      · exact hrs C₀ hC₀
      · exact List.mem_singleton.mp hC₀
  | commit k ih =>
    intro rs ws L C h hI hrs env hOk
    obtain ⟨hT, hI', _⟩ := h.1 C hI (.refl D L C)
    have hk := @ih [] [] [] _ (h.2 _ hI') hI' (by simp) (fun n => env (n + 1)) fun n => hOk (n + 1)
    exact ⟨hk.1, hk.2.1, .head ⟨rs, hrs, hT⟩ hk.2.2⟩

/-- A good program that writes in one transaction makes one step of `T`, or none. -/
theorem Prog.Good.exec_once {p : Prog S W R E X α} :
    ∀ {rs : List S} {ws : List W} {L : List R} {C : S}, p.Good D I Ok T Q rs ws L C → p.Once D →
      I C → (∀ C₀ ∈ rs, C₀ = C) → ∀ env : ℕ → E, (∀ n, Ok (env n)) →
        (p.exec D env C (D.applyAll ws C)).2 = C ∨
          Alone T C (p.exec D env C (D.applyAll ws C)).2 := by
  induction p with
  | ret a => intro rs ws L C _ _ _ _ env _; exact Or.inl rfl
  | stmt s k ih =>
    intro rs ws L C h ho hI hrs env hOk
    obtain ⟨_, hok⟩ := h C C hI (.refl D L C) hI (.refl D L C) (env 0) (hOk 0)
    rcases hr : s.run (env 0) (D.applyAll ws C) (D.applyAll ws C) with e | ⟨w, b⟩
    · rw [Prog.exec_stmt_error hr]
      exact Or.inl rfl
    · rw [Prog.exec_stmt_ok hr, ← Storage.applyAll_snoc]
      refine ih b (hok w b hr) (ho b) hI (fun C₀ hC₀ => ?_) env hOk
      rcases List.mem_append.mp hC₀ with hC₀ | hC₀
      · exact hrs C₀ hC₀
      · exact List.mem_singleton.mp hC₀
  | commit k ih =>
    intro rs ws L C h ho hI hrs env hOk
    right
    show Alone T C (k.exec D (fun n => env (n + 1)) (D.applyAll ws C) (D.applyAll ws C)).2
    rw [Prog.Quiet.exec D ho]
    exact ⟨rs, hrs, (h.1 C hI (.refl D L C)).1⟩

/-! ## Sessions -/

/-- A session: the call it serves, what is left of its program, the snapshot of the statement it has
started, and, of its open transaction, the newest stores that its statements have read, its writes
and its locks. -/
structure Session (C S W R E X α : Type) : Type 1 where
  call : C
  prog : Prog S W R E X α
  snap : Option S
  reads : List S
  writes : List W
  locks : List R

variable {C ι : Type} [DecidableEq ι]

/-- A session that starts the program of a call. -/
def Session.start (c : C) (p : Prog S W R E X α) : Session C S W R E X α :=
  ⟨c, p, none, [], [], []⟩

/-- The committed store and the sessions. -/
structure System (ι C S W R E X α : Type) : Type 1 where
  committed : S
  session : ι → Session C S W R E X α

/-- Session `i` becomes `σ`. -/
def System.set (y : System ι C S W R E X α) (i : ι) (σ : Session C S W R E X α) :
    System ι C S W R E X α := { y with session := Function.update y.session i σ }

@[simp] theorem System.set_committed (y : System ι C S W R E X α) (i : ι)
    (σ : Session C S W R E X α) : (y.set i σ).committed = y.committed := rfl

@[simp] theorem System.set_session_self (y : System ι C S W R E X α) (i : ι)
    (σ : Session C S W R E X α) : (y.set i σ).session i = σ := Function.update_self ..

theorem System.set_session_of_ne (y : System ι C S W R E X α) {i j : ι} (h : j ≠ i)
    (σ : Session C S W R E X α) : (y.set i σ).session j = y.session j :=
  Function.update_of_ne h ..

/-- No session other than `i` holds a lock on `r`. -/
def System.Free (y : System ι C S W R E X α) (i : ι) (r : R) : Prop :=
  ∀ j, j ≠ i → r ∉ (y.session j).locks

/-- What a session does in one step. -/
inductive Act (C E : Type)
  | call (c : C)
  | snapshot
  | exec (env : E)
  | fail (env : E)
  | commit
  | rollback

variable (D)

/-- One step of one session. A statement starts by taking its snapshot; it executes once no other
session holds a row it waits for or locks, reading the newest committed rows at that moment. -/
inductive Step (program : C → Prog S W R E X α) (Ok : E → Prop) :
    System ι C S W R E X α → ι → Act C E → System ι C S W R E X α → Prop
  | call {y i a} (c : C) (hp : (y.session i).prog = .ret a) :
    Step program Ok y i (.call c) (y.set i (.start c (program c)))
  | snapshot {y i β} {s : Stmt S W R E X β} {k} (hp : (y.session i).prog = .stmt s k)
      (hs : (y.session i).snap = none) :
    Step program Ok y i .snapshot (y.set i { y.session i with snap := some y.committed })
  | exec {y i β} {s : Stmt S W R E X β} {k sn w b} (env : E) (hp : (y.session i).prog = .stmt s k)
      (hs : (y.session i).snap = some sn) (hOk : Ok env)
      (hw : ∀ r ∈ s.waits env (D.applyAll (y.session i).writes sn), y.Free i r)
      (hr : s.run env (D.applyAll (y.session i).writes sn)
        (D.applyAll (y.session i).writes y.committed) = .ok (w, b))
      (hl : ∀ r ∈ s.acquires D env (D.applyAll (y.session i).writes sn)
        (D.applyAll (y.session i).writes y.committed) w, y.Free i r) :
    Step program Ok y i (.exec env) (y.set i
      ⟨(y.session i).call, k b, none, (y.session i).reads ++ [y.committed],
        (y.session i).writes ++ [w],
        (y.session i).locks ++ s.acquires D env (D.applyAll (y.session i).writes sn)
          (D.applyAll (y.session i).writes y.committed) w⟩)
  | fail {y i β} {s : Stmt S W R E X β} {k sn e} (env : E) (hp : (y.session i).prog = .stmt s k)
      (hs : (y.session i).snap = some sn) (hOk : Ok env)
      (hw : ∀ r ∈ s.waits env (D.applyAll (y.session i).writes sn), y.Free i r)
      (hr : s.run env (D.applyAll (y.session i).writes sn)
        (D.applyAll (y.session i).writes y.committed) = .error e) :
    Step program Ok y i (.fail env) (y.set i (.start (y.session i).call (.ret (.error e))))
  | commit {y i k} (hp : (y.session i).prog = .commit k) :
    Step program Ok y i .commit
      ⟨D.applyAll (y.session i).writes y.committed,
        Function.update y.session i (.start (y.session i).call k)⟩
  | rollback {y i a} (hp : (y.session i).prog = .ret a) :
    Step program Ok y i .rollback (y.set i (.start (y.session i).call (.ret a)))

/-- A finite run, with the session and the kind of each step; `G` says which steps are taken. -/
inductive Run (program : C → Prog S W R E X α) (Ok : E → Prop)
    (G : System ι C S W R E X α → ι → Act C E → Prop) :
    System ι C S W R E X α → List (ι × Act C E) → System ι C S W R E X α → Prop
  | nil (y) : Run program Ok G y [] y
  | snoc {y ls y' i a y''} (h : Run program Ok G y ls y') (hG : G y' i a)
    (hs : Step D program Ok y' i a y'') : Run program Ok G y (ls ++ [(i, a)]) y''

variable {D} {program : C → Prog S W R E X α} {G : System ι C S W R E X α → ι → Act C E → Prop}
  {T : C → List S → S → S → Prop} {Q : C → Except X α → Prop} {y y' : System ι C S W R E X α}

/-- What every step of a run keeps holds at its end. -/
theorem Run.invariant {P : System ι C S W R E X α → Prop} {ls : List (ι × Act C E)}
    (h : Run D program Ok G y ls y') (hy : P y)
    (hstep : ∀ y i a y', P y → G y i a → Step D program Ok y i a y' → P y') : P y' := by
  induction h with
  | nil => exact hy
  | snoc _ hG hs ih => exact hstep _ _ _ _ ih hG hs

theorem Run.mono {G' : System ι C S W R E X α → ι → Act C E → Prop} {ls : List (ι × Act C E)}
    (h : Run D program Ok G y ls y') (hG : ∀ y i a, G y i a → G' y i a) :
    Run D program Ok G' y ls y' := by
  induction h with
  | nil => exact .nil _
  | snoc _ hG' hs ih => exact ih.snoc (hG _ _ _ hG') hs

/-- A step leaves every session with a program that yields what its call may answer. -/
theorem Step.yields (hprog : ∀ c, (program c).Yields (Q c))
    (hy : ∀ i, (y.session i).prog.Yields (Q (y.session i).call)) {i : ι} {a : Act C E}
    (hs : Step D program Ok y i a y') :
    ∀ j, (y'.session j).prog.Yields (Q (y'.session j).call) := by
  have hset : ∀ {σ : Session C S W R E X α}, σ.prog.Yields (Q σ.call) →
      ∀ j, ((y.set i σ).session j).prog.Yields (Q ((y.set i σ).session j).call) := by
    intro σ hσ j
    by_cases hj : j = i
    · subst hj
      rwa [System.set_session_self]
    · rw [System.set_session_of_ne y hj]
      exact hy j
  have hi := hy i
  cases hs with
  | call c hp => exact hset (hprog c)
  | snapshot hp hsn => exact hset hi
  | exec env hp hsn hOk hw hr hl =>
    rw [hp] at hi
    exact hset ((hi env _ _).2 _ _ hr)
  | fail env hp hsn hOk hw hr =>
    rw [hp] at hi
    exact hset ((hi env _ _).1 _ hr)
  | commit hp =>
    rw [hp] at hi
    intro j
    by_cases hj : j = i
    · subst hj
      simp only [Function.update_self]
      exact hi
    · simp only [Function.update_of_ne hj]
      exact hy j
  | rollback hp =>
    rw [hp] at hi
    exact hset hi

/-- Along a run every session is left with a program that yields what its call may answer. -/
theorem Run.yields (hprog : ∀ c, (program c).Yields (Q c))
    (hy : ∀ i, (y.session i).prog.Yields (Q (y.session i).call)) {ls : List (ι × Act C E)}
    (h : Run D program Ok G y ls y') (i : ι) :
    (y'.session i).prog.Yields (Q (y'.session i).call) :=
  h.invariant (P := fun y => ∀ i, (y.session i).prog.Yields (Q (y.session i).call)) hy
    (fun _ _ _ _ hy _ hs => hs.yields hprog hy) i

variable (D I Ok T Q) in
/-- The store invariant holds, the locks are exclusive and every session is good. -/
structure Sound (y : System ι C S W R E X α) : Prop where
  store : I y.committed
  exclusive : ∀ i j, i ≠ j → ∀ r ∈ (y.session i).locks, r ∉ (y.session j).locks
  good : ∀ i, (y.session i).prog.Good D I Ok (T (y.session i).call) (Q (y.session i).call)
    (y.session i).reads (y.session i).writes (y.session i).locks y.committed
  snap : ∀ i sn, (y.session i).snap = some sn → I sn ∧ D.Agree (y.session i).locks y.committed sn

omit [DecidableEq ι] in
/-- Sessions that have answered, on a store that satisfies the invariant. -/
theorem Sound.initial {B : S} {c : ι → C} {a : ι → Except X α} (hB : I B)
    (ha : ∀ i, Q (c i) (a i)) : Sound D I Ok T Q ⟨B, fun i => .start (c i) (.ret (a i))⟩ where
  store := hB
  exclusive _ _ _ r hr := by simp [Session.start] at hr
  good := ha
  snap i sn hsn := by simp [Session.start] at hsn

/-- Replacing a session by a good one whose new locks were free. -/
theorem Sound.set (h : Sound D I Ok T Q y) {i : ι} {σ : Session C S W R E X α}
    (hl : ∀ r ∈ σ.locks, r ∈ (y.session i).locks ∨ y.Free i r)
    (hg : σ.prog.Good D I Ok (T σ.call) (Q σ.call) σ.reads σ.writes σ.locks y.committed)
    (hs : ∀ sn, σ.snap = some sn → I sn ∧ D.Agree σ.locks y.committed sn) :
    Sound D I Ok T Q (y.set i σ) := by
  have hfree : ∀ j, j ≠ i → ∀ r ∈ σ.locks, r ∉ (y.session j).locks := by
    intro j hj r hr
    rcases hl r hr with hr' | hr'
    · exact h.exclusive i j (Ne.symm hj) r hr'
    · exact hr' j hj
  refine ⟨h.store, fun j l hne r hr => ?_, fun j => ?_, fun j sn hsn => ?_⟩
  · by_cases hj : j = i
    · subst hj
      rw [System.set_session_self] at hr
      rw [System.set_session_of_ne y (Ne.symm hne)]
      exact hfree l (Ne.symm hne) r hr
    · rw [System.set_session_of_ne y hj] at hr
      by_cases hli : l = i
      · subst hli
        rw [System.set_session_self]
        exact fun hc => hfree j hj r hc hr
      · rw [System.set_session_of_ne y hli]
        exact h.exclusive j l hne r hr
  · by_cases hj : j = i
    · subst hj
      rw [System.set_session_self]
      exact hg
    · rw [System.set_session_of_ne y hj]
      exact h.good j
  · by_cases hj : j = i
    · subst hj
      rw [System.set_session_self] at hsn ⊢
      exact hs sn hsn
    · rw [System.set_session_of_ne y hj] at hsn ⊢
      exact h.snap j sn hsn

/-- A commit is a step of `T` and leaves what the other sessions hold locked. -/
theorem Sound.commit (h : Sound D I Ok T Q y) {i : ι} {k : Prog S W R E X α}
    (hp : (y.session i).prog = .commit k) :
    T (y.session i).call (y.session i).reads y.committed
        (D.applyAll (y.session i).writes y.committed) ∧
      Sound D I Ok T Q ⟨D.applyAll (y.session i).writes y.committed,
        Function.update y.session i (.start (y.session i).call k)⟩ := by
  have hg := h.good i
  rw [hp] at hg
  obtain ⟨hT, hI, hframe⟩ := hg.1 y.committed h.store (.refl D _ _)
  have hagree : ∀ j, j ≠ i → D.Agree (y.session j).locks y.committed
      (D.applyAll (y.session i).writes y.committed) :=
    fun j hj r hr => hframe r (h.exclusive j i hj r hr)
  refine ⟨hT, hI, fun j l hne r hr => ?_, fun j => ?_, fun j sn hsn => ?_⟩
  · by_cases hj : j = i
    · subst hj
      simp [Session.start] at hr
    · simp only [Function.update_of_ne hj] at hr
      by_cases hli : l = i
      · subst hli
        simp [Session.start]
      · simp only [Function.update_of_ne hli]
        exact h.exclusive j l hne r hr
  · by_cases hj : j = i
    · subst hj
      simp only [Function.update_self]
      exact hg.2 _ hI
    · simp only [Function.update_of_ne hj]
      exact (h.good j).agree (hagree j hj)
  · by_cases hj : j = i
    · subst hj
      simp [Session.start] at hsn
    · simp only [Function.update_of_ne hj] at *
      obtain ⟨hI', ha⟩ := h.snap j sn hsn
      exact ⟨hI', (hagree j hj).symm.trans ha⟩

/-- **One step keeps soundness**, given that the programs of all calls are good. -/
theorem Sound.step
    (hprog : ∀ c B, I B → (program c).Good D I Ok (T c) (Q c) [] [] [] B)
    (h : Sound D I Ok T Q y) {i : ι} {a : Act C E} (hs : Step D program Ok y i a y') :
    Sound D I Ok T Q y' := by
  cases hs with
  | call c hp =>
    exact h.set (fun r hr => absurd hr (by simp [Session.start])) (hprog c _ h.store)
      (fun sn hsn => by simp [Session.start] at hsn)
  | snapshot hp hsn =>
    refine h.set (fun r hr => Or.inl hr) (h.good i) fun sn hsn' => ?_
    obtain rfl : y.committed = sn := by simpa using hsn'
    exact ⟨h.store, .refl D _ _⟩
  | exec env hp hsn hOk hw hr hl =>
    obtain ⟨hI, ha⟩ := h.snap i _ hsn
    have hg := h.good i
    rw [hp] at hg
    refine h.set (fun r hr' => ?_) ((hg _ _ hI ha h.store (.refl D _ _) env hOk).2 _ _ hr)
      (fun sn hsn' => by simp at hsn')
    rcases List.mem_append.mp hr' with hr' | hr'
    · exact Or.inl hr'
    · exact Or.inr (hl r hr')
  | fail env hp hsn hOk hw hr =>
    obtain ⟨hI, ha⟩ := h.snap i _ hsn
    have hg := h.good i
    rw [hp] at hg
    exact h.set (fun r hr' => absurd hr' (by simp [Session.start]))
      ((hg _ _ hI ha h.store (.refl D _ _) env hOk).1 _ hr)
      (fun sn hsn' => by simp [Session.start] at hsn')
  | commit hp => exact (h.commit hp).2
  | rollback hp =>
    have hg := h.good i
    rw [hp] at hg
    exact h.set (fun r hr' => absurd hr' (by simp [Session.start])) hg
      (fun sn hsn' => by simp [Session.start] at hsn')

theorem Sound.run
    (hprog : ∀ c B, I B → (program c).Good D I Ok (T c) (Q c) [] [] [] B)
    (h : Sound D I Ok T Q y) {ls : List (ι × Act C E)} (hr : Run D program Ok G y ls y') :
    Sound D I Ok T Q y' :=
  hr.invariant h fun _ _ _ _ h _ hs => h.step hprog hs

/-- Only a commit changes the committed store, and it is a step of `T`. -/
theorem Sound.committed_step (h : Sound D I Ok T Q y) {i : ι} {a : Act C E}
    (hs : Step D program Ok y i a y') :
    y'.committed = y.committed ∨
      T (y.session i).call (y.session i).reads y.committed y'.committed := by
  cases hs with
  | commit hp => exact Or.inr (h.commit hp).1
  | _ => exact Or.inl rfl

/-- What a step of another session does to session `i`: nothing but a commit that keeps the rows
that `i` has locked. -/
theorem Sound.other_step (h : Sound D I Ok T Q y) {i j : ι} {a : Act C E} (hij : i ≠ j)
    (hs : Step D program Ok y j a y') : y'.session i = y.session i ∧
      (y'.committed = y.committed ∨
        T (y.session j).call (y.session j).reads y.committed y'.committed ∧
          D.Agree (y.session i).locks y.committed y'.committed) := by
  cases hs with
  | commit hp =>
    have hg := h.good j
    rw [hp] at hg
    obtain ⟨hT, -, hframe⟩ := hg.1 y.committed h.store (.refl D _ _)
    refine ⟨Function.update_of_ne hij .., Or.inr ⟨hT, fun r hr => ?_⟩⟩
    exact hframe r (h.exclusive i j hij r hr)
  | _ => exact ⟨y.set_session_of_ne hij _, Or.inl rfl⟩

/-! ## What a session knows -/

variable (D I Ok program) in
/-- A statement about one session and the committed store, kept by the steps of the session and by
every change of what it has not locked. -/
structure Stable (P : S → Session C S W R E X α → Prop) : Prop where
  start : ∀ B c, P B (.start c (program c))
  answered : ∀ B c a, P B (.start c (.ret a))
  snapshot : ∀ B σ sn, P B σ → P B { σ with snap := sn }
  exec : ∀ {B σ sn env β w b} {s : Stmt S W R E X β} {k : β → Prog S W R E X α}, P B σ → I B →
    I sn → D.Agree σ.locks B sn → Ok env → σ.prog = .stmt s k →
    s.run env (D.applyAll σ.writes sn) (D.applyAll σ.writes B) = .ok (w, b) →
    P B ⟨σ.call, k b, none, σ.reads ++ [B], σ.writes ++ [w],
      σ.locks ++ s.acquires D env (D.applyAll σ.writes sn) (D.applyAll σ.writes B) w⟩
  commit : ∀ {B σ k}, P B σ → I B → I (D.applyAll σ.writes B) → σ.prog = .commit k →
    P (D.applyAll σ.writes B) (.start σ.call k)
  agree : ∀ {B B' σ}, P B σ → I B → I B' → D.Agree σ.locks B B' → P B' σ

theorem Stable.step {P : S → Session C S W R E X α → Prop} (hP : Stable D I Ok program P)
    (h : Sound D I Ok T Q y) (hy : ∀ i, P y.committed (y.session i)) {i : ι} {a : Act C E}
    (hs : Step D program Ok y i a y') (h' : Sound D I Ok T Q y') :
    ∀ j, P y'.committed (y'.session j) := by
  intro j
  by_cases hj : j = i
  · subst hj
    cases hs with
    | call c hp =>
      rw [System.set_session_self]
      exact hP.start _ c
    | snapshot hp hsn =>
      rw [System.set_session_self]
      exact hP.snapshot _ _ _ (hy j)
    | exec env hp hsn hOk hw hr hl =>
      rw [System.set_session_self]
      obtain ⟨hI, ha⟩ := h.snap j _ hsn
      exact hP.exec (hy j) h.store hI ha hOk hp hr
    | fail env hp hsn hOk hw hr =>
      rw [System.set_session_self]
      exact hP.answered ..
    | commit hp =>
      simp only [Function.update_self]
      exact hP.commit (hy j) h.store h'.store hp
    | rollback hp =>
      rw [System.set_session_self]
      exact hP.answered ..
  · obtain ⟨hsession, hcommitted⟩ := h.other_step hj hs
    rw [hsession]
    rcases hcommitted with heq | ⟨-, hagree⟩
    · rw [heq]
      exact hy j
    · exact hP.agree (hy j) h.store h'.store hagree

/-- **What sessions know stays true along a run.** -/
theorem Stable.run {P : S → Session C S W R E X α → Prop} (hP : Stable D I Ok program P)
    (hprog : ∀ c B, I B → (program c).Good D I Ok (T c) (Q c) [] [] [] B)
    (h : Sound D I Ok T Q y) (hy : ∀ i, P y.committed (y.session i)) {ls : List (ι × Act C E)}
    (hr : Run D program Ok G y ls y') : ∀ i, P y'.committed (y'.session i) := by
  refine (hr.invariant (P := fun y => Sound D I Ok T Q y ∧ ∀ i, P y.committed (y.session i))
    ⟨h, hy⟩ fun y i a y' h _ hs => ?_).2
  have h' := h.1.step hprog hs
  exact ⟨h', hP.step h.1 h.2 hs h'⟩

/-- **A program of one statement**, or of none. When it is about to commit, its locks protect what
the statement has read in the newest rows. -/
theorem Stable.single {c : C} {β : Type} {q : Stmt S W R E X β} {f : β → Except X α}
    (hprog : program c = (.stmt q fun b => .commit (.ret (f b))) ∨ ∃ x, program c = .ret x) :
    Stable D I Ok program fun B σ => σ.call = c →
      (σ.prog = program c ∧ σ.writes = [] ∧ σ.locks = []) ∨
      (∃ env sn B₀ w b, Ok env ∧ I sn ∧ I B₀ ∧ q.run env sn B₀ = .ok (w, b) ∧
        σ.prog = .commit (.ret (f b)) ∧ σ.writes = [w] ∧ σ.locks = q.acquires D env sn B₀ w ∧
        D.Agree σ.locks B₀ B) ∨
      ∃ x, σ.prog = .ret x where
  start B c' hc := Or.inl ⟨congrArg program hc, rfl, rfl⟩
  answered B c' a _ := Or.inr (Or.inr ⟨a, rfl⟩)
  snapshot B σ sn h := h
  exec := by
    intro B σ sn env β' w b s k h hB hsn hagree hOk hp hr hc
    rcases h hc with ⟨hp', hw, hl⟩ | ⟨_, _, _, _, _, -, -, -, -, hp', -⟩ | ⟨x, hp'⟩
    · rcases hprog with hprog | ⟨x, hprog⟩ <;> rw [hprog] at hp' <;> cases hp.symm.trans hp'
      simp only [hw, Storage.applyAll_nil] at hr
      refine Or.inr (Or.inl ⟨env, sn, B, w, b, hOk, hsn, hB, hr, rfl, ?_, ?_, .refl D _ _⟩)
      · simp [hw]
      · simp [hw, hl]
    · cases hp.symm.trans hp'
    · cases hp.symm.trans hp'
  commit := by
    intro B σ k h _ _ hp hc
    rcases h hc with ⟨hp', -⟩ | ⟨_, _, _, _, _, -, -, -, -, hp', -⟩ | ⟨x, hp'⟩
    · rcases hprog with hprog | ⟨x, hprog⟩ <;> rw [hprog] at hp' <;> cases hp.symm.trans hp'
    · cases hp.symm.trans hp'
      exact Or.inr (Or.inr ⟨_, rfl⟩)
    · cases hp.symm.trans hp'
  agree := by
    intro B B' σ h _ _ hagree hc
    rcases h hc with hcalled | ⟨env, sn, B₀, w, b, hOk, hsn, hB₀, hr, hp, hw, hl, ha⟩ | hret
    · exact Or.inl hcalled
    · exact Or.inr (Or.inl ⟨env, sn, B₀, w, b, hOk, hsn, hB₀, hr, hp, hw, hl, ha.trans hagree⟩)
    · exact Or.inr (Or.inr hret)

/-! ## Replaying a run -/

section Replay

variable [Fintype ι] [DecidableEq R]

instance (y : System ι C S W R E X α) (i : ι) (r : R) : Decidable (y.Free i r) :=
  inferInstanceAs (Decidable (∀ j, j ≠ i → r ∉ (y.session j).locks))

variable (D) (program) in
/-- The step that a session takes, if it can take it. -/
def System.next (y : System ι C S W R E X α) (i : ι) : Act C E → Option (System ι C S W R E X α)
  | .call c =>
    match (y.session i).prog with
    | .ret _ => some (y.set i (.start c (program c)))
    | _ => none
  | .snapshot =>
    match (y.session i).prog, (y.session i).snap with
    | .stmt _ _, none => some (y.set i { y.session i with snap := some y.committed })
    | _, _ => none
  | .exec env =>
    match (y.session i).prog, (y.session i).snap with
    | .stmt s k, some sn =>
      let snap := D.applyAll (y.session i).writes sn
      let cur := D.applyAll (y.session i).writes y.committed
      match s.run env snap cur with
      | .ok (w, b) =>
        if (∀ r ∈ s.waits env snap, y.Free i r) ∧ ∀ r ∈ s.acquires D env snap cur w, y.Free i r then
          some (y.set i ⟨(y.session i).call, k b, none, (y.session i).reads ++ [y.committed],
            (y.session i).writes ++ [w], (y.session i).locks ++ s.acquires D env snap cur w⟩)
        else none
      | .error _ => none
    | _, _ => none
  | .fail env =>
    match (y.session i).prog, (y.session i).snap with
    | .stmt s _, some sn =>
      let snap := D.applyAll (y.session i).writes sn
      match s.run env snap (D.applyAll (y.session i).writes y.committed) with
      | .ok _ => none
      | .error e =>
        if ∀ r ∈ s.waits env snap, y.Free i r then
          some (y.set i (.start (y.session i).call (.ret (.error e))))
        else none
    | _, _ => none
  | .commit =>
    match (y.session i).prog with
    | .commit k => some ⟨D.applyAll (y.session i).writes y.committed,
        Function.update y.session i (.start (y.session i).call k)⟩
    | _ => none
  | .rollback =>
    match (y.session i).prog with
    | .ret a => some (y.set i (.start (y.session i).call (.ret a)))
    | _ => none

theorem System.next_sound {i : ι} {a : Act C E} (hOk : ∀ env, Ok env)
    (h : y.next D program i a = some y') : Step D program Ok y i a y' := by
  cases a with
  | call c =>
    rcases hp : (y.session i).prog with x | ⟨s, k⟩ | k
    · simp only [next, hp, Option.some.injEq] at h
      exact h ▸ .call c hp
    all_goals simp [next, hp] at h
  | snapshot =>
    rcases hp : (y.session i).prog with x | ⟨s, k⟩ | k
    case stmt =>
      rcases hs : (y.session i).snap with _ | sn
      · obtain rfl : y.set i { y.session i with snap := some y.committed } = y' := by
          simpa [next, hp, hs] using h
        exact .snapshot hp hs
      · simp [next, hp, hs] at h
    all_goals simp [next, hp] at h
  | exec env =>
    rcases hp : (y.session i).prog with x | ⟨s, k⟩ | k
    case stmt =>
      rcases hs : (y.session i).snap with _ | sn
      · simp [next, hp, hs] at h
      rcases hr : s.run env (D.applyAll (y.session i).writes sn)
        (D.applyAll (y.session i).writes y.committed) with e | ⟨w, b⟩
      · simp [next, hp, hs, hr] at h
      · simp only [next, hp, hs, hr] at h
        split_ifs at h with hfree
        exact Option.some.inj h ▸ .exec env hp hs (hOk env) hfree.1 hr hfree.2
    all_goals simp [next, hp] at h
  | fail env =>
    rcases hp : (y.session i).prog with x | ⟨s, k⟩ | k
    case stmt =>
      rcases hs : (y.session i).snap with _ | sn
      · simp [next, hp, hs] at h
      rcases hr : s.run env (D.applyAll (y.session i).writes sn)
        (D.applyAll (y.session i).writes y.committed) with e | ⟨w, b⟩
      · simp only [next, hp, hs, hr] at h
        split_ifs at h with hfree
        exact Option.some.inj h ▸ .fail env hp hs (hOk env) hfree hr
      · simp [next, hp, hs, hr] at h
    all_goals simp [next, hp] at h
  | commit =>
    rcases hp : (y.session i).prog with x | ⟨s, k⟩ | k
    case commit =>
      simp only [next, hp, Option.some.injEq] at h
      exact h ▸ .commit hp
    all_goals simp [next, hp] at h
  | rollback =>
    rcases hp : (y.session i).prog with x | ⟨s, k⟩ | k
    · simp only [next, hp, Option.some.injEq] at h
      exact h ▸ .rollback hp
    all_goals simp [next, hp] at h

variable (D) (program) in
/-- The given steps, one after the other. -/
def System.replay (y : System ι C S W R E X α) :
    List (ι × Act C E) → Option (System ι C S W R E X α)
  | [] => some y
  | (i, a) :: ls => (y.next D program i a).bind fun y' => y'.replay ls

theorem System.replay_single (y : System ι C S W R E X α) (i : ι) (a : Act C E) :
    y.replay D program [(i, a)] = y.next D program i a := by
  rw [replay]
  exact Option.bind_fun_some _

theorem System.replay_append (y : System ι C S W R E X α) (ls ls' : List (ι × Act C E)) :
    y.replay D program (ls ++ ls') =
      (y.replay D program ls).bind fun y' => y'.replay D program ls' := by
  induction ls generalizing y with
  | nil => rfl
  | cons l ls ih =>
    show ((y.next D program l.1 l.2).bind fun y' => y'.replay D program (ls ++ ls')) = _
    simp only [ih]
    exact (Option.bind_assoc ..).symm

omit [Fintype ι] [DecidableEq R] in
theorem Run.append {y'' : System ι C S W R E X α} {ls ls' : List (ι × Act C E)}
    (h : Run D program Ok G y ls y') (h' : Run D program Ok G y' ls' y'') :
    Run D program Ok G y (ls ++ ls') y'' := by
  induction h' with
  | nil => simpa using h
  | snoc _ hG hs ih =>
    rw [← List.append_assoc]
    exact ih.snoc hG hs

/-- What can be replayed is a run. -/
theorem System.replay_sound (hOk : ∀ env, Ok env) (hG : ∀ y i a, G y i a)
    {ls : List (ι × Act C E)} : ∀ {y : System ι C S W R E X α},
      y.replay D program ls = some y' → Run D program Ok G y ls y' := by
  induction ls with
  | nil =>
    intro y h
    obtain rfl := Option.some.inj h
    exact .nil y
  | cons l ls ih =>
    obtain ⟨i, a⟩ := l
    intro y h
    obtain ⟨y₁, h₁, h₂⟩ := Option.bind_eq_some_iff.mp h
    exact Run.append (.snoc (.nil y) (hG ..) (next_sound hOk h₁)) (ih h₂)

variable (D) (program) in
/-- The given steps, as long as `p` holds before each of them. -/
def System.replayWhile (p : System ι C S W R E X α → Bool) (y : System ι C S W R E X α) :
    List (ι × Act C E) → Option (System ι C S W R E X α)
  | [] => some y
  | (i, a) :: ls => if p y then (y.next D program i a).bind fun y' => y'.replayWhile p ls else none

theorem System.replayWhile_sound {p : System ι C S W R E X α → Bool} (hOk : ∀ env, Ok env)
    (hG : ∀ y i a, p y → G y i a) {ls : List (ι × Act C E)} : ∀ {y : System ι C S W R E X α},
      y.replayWhile D program p ls = some y' → Run D program Ok G y ls y' := by
  induction ls with
  | nil =>
    intro y h
    obtain rfl := Option.some.inj h
    exact .nil y
  | cons l ls ih =>
    obtain ⟨i, a⟩ := l
    intro y h
    rw [replayWhile] at h
    split_ifs at h with hp
    obtain ⟨y₁, h₁, h₂⟩ := Option.bind_eq_some_iff.mp h
    exact Run.append (.snoc (.nil y) (hG _ _ _ hp) (next_sound hOk h₁)) (ih h₂)

end Replay

end ReadCommitted
