import PgTaskScheduler.Call

/-!
# `runtime::registry` and `runtime::builder`

A registry maps validated job names to handlers; the first handler of a name wins. The builder adds
handlers under names that it validates, and `build` refuses a configuration that cannot work.

`registerAll_eq_ok_iff` says which registrations a builder accepts, `scheduler_registration` what a
name is answered with afterwards.
-/

namespace PgTaskScheduler

open Tables

/-! ## Handlers -/

/-- The error of a handler, by the text that it is displayed as. -/
structure JobError where
  text : String
  retryable : Bool
deriving DecidableEq, Repr

namespace JobError

def retry (message : String) : JobError := ⟨message, true⟩

/-- `From<E: Error>` -/
def fromError (display : String) : JobError := ⟨display, false⟩

end JobError

/-- What a handler returns: `Result<(), JobError>`. -/
abbrev HandlerResult := Except JobError Unit

structure JobContext where
  runId : RunId
  jobId : Option JobId
  jobName : String
  scheduledFor : DateTime
  attempt : ℕ
  leaseToken : LeaseToken
  leaseExpiresAt : DateTime

/-- The future of a handler: one of its own, or a result that is there at once. -/
inductive HandlerFuture (F : Type)
  | running (f : F)
  | ready (result : HandlerResult)

abbrev Handler (F : Type) := JobContext → Json → HandlerFuture F

variable {F A : Type}

/-- The handler that `register` stores: arguments that do not deserialize end it at once. -/
def boxed (fromValue : Json → Except String A) (handler : JobContext → A → F) : Handler F :=
  fun ctx value =>
    match fromValue value with
    | .ok args => .running (handler ctx args)
    | .error e => .ready (.error (.fromError e))

/-- What a call of `register` passes: a name, and a handler with the type of its arguments and
their deserialization. -/
structure TypedHandler (F : Type) where
  name : String
  Args : Type
  fromValue : Json → Except String Args
  handler : JobContext → Args → F

/-- What the registry holds of it. -/
def TypedHandler.entry (h : TypedHandler F) : String × Handler F :=
  (h.name, boxed h.fromValue h.handler)

theorem TypedHandler.map_fst_entry (hs : List (TypedHandler F)) :
    (hs.map entry).map Prod.fst = hs.map name := by
  rw [List.map_map]
  rfl

/-! ## The registry -/

/-- A `HashMap` from names to handlers, in the order of registration. -/
structure Registry (F : Type) where
  handlers : List (JobName × Handler F)
  distinct : Keyed (fun h => h.1.value) handlers

structure DuplicateJobName where
  name : JobName

namespace Registry

def new : Registry F := ⟨[], List.nodup_nil⟩

/-- The names with their handlers. -/
def entries (r : Registry F) : List (String × Handler F) := r.handlers.map fun h => (h.1.value, h.2)

def isEmpty (r : Registry F) : Bool := r.handlers.isEmpty

/-- The names, for the claim filter. -/
def names (r : Registry F) : List String := r.handlers.map fun h => h.1.value

/-- The handler of a name; a claimed name is the text that the row holds. -/
def get (r : Registry F) (name : String) : Option (Handler F) :=
  (lookup (fun h : JobName × Handler F => h.1.value) name r.handlers).map Prod.snd

/-- The first handler wins; a refused registration changes nothing. -/
def register (r : Registry F) (name : JobName) (fromValue : Json → Except String A)
    (handler : JobContext → A → F) : Except DuplicateJobName (Registry F) :=
  if h : name.value ∈ r.names then .error ⟨name⟩
  else .ok ⟨r.handlers ++ [(name, boxed fromValue handler)], by
    unfold Keyed
    rw [List.map_append]
    refine List.Nodup.append r.distinct (List.nodup_singleton _) ?_
    rintro n hn hmem
    rw [List.mem_singleton.mp hmem] at hn
    exact h hn⟩

variable {r r' : Registry F} {name : JobName} {fromValue : Json → Except String A}
  {handler : JobContext → A → F}

theorem entry_injective :
    Function.Injective fun h : JobName × Handler F => (h.1.value, h.2) := by
  rintro ⟨⟨n, _⟩, h⟩ ⟨⟨n', _⟩, h'⟩ he
  obtain ⟨rfl, rfl⟩ := Prod.mk.inj he
  rfl

/-- A registry is determined by its names and handlers. -/
theorem eq_of_entries (h : r'.entries = r.entries) : r' = r := by
  obtain ⟨hs, hd⟩ := r
  obtain ⟨hs', hd'⟩ := r'
  obtain rfl : hs' = hs := List.map_injective_iff.mpr entry_injective h
  rfl

theorem names_eq : r.names = r.entries.map Prod.fst := by
  simp [names, entries]

theorem get_isSome_iff {n : String} : (r.get n).isSome ↔ n ∈ r.names := by
  unfold get names
  rw [Option.isSome_map, lookup_isSome_iff]
  simp

theorem register_eq_ok_iff : r.register name fromValue handler = .ok r' ↔
    name.value ∉ r.names ∧ r'.handlers = r.handlers ++ [(name, boxed fromValue handler)] := by
  unfold register
  split_ifs with h
  · exact iff_of_false (by simp) fun hr => hr.1 h
  · obtain ⟨hs, hd⟩ := r'
    simp [h, eq_comm]

theorem register_eq_error_iff {e : DuplicateJobName} :
    r.register name fromValue handler = .error e ↔ name.value ∈ r.names ∧ e = ⟨name⟩ := by
  unfold register
  split_ifs with h
  · simp [h, eq_comm]
  · simp [h]

end Registry

/-! ## The builder -/

structure Config where
  workerId : WorkerId
  pollInterval : Duration
  reaperInterval : Duration
  shutdownTimeout : Duration
  maxConcurrency : NonZeroUsize

structure SchedulerBuilder (F : Type) where
  registry : Registry F
  config : Config

/-- A built scheduler. -/
structure Scheduler (F : Type) where
  registry : Registry F
  config : Config

inductive RegisterError
  | name (e : IdentifierError)
  | duplicate (e : DuplicateJobName)

theorem one_le_u64Max : 1 ≤ u64Max := by decide

/-- `Duration::from_secs` -/
def Duration.fromSecs (n : ℕ) (h : n ≤ u64Max) : Duration := ⟨n, 0, h, by decide⟩

def Duration.isZero (d : Duration) : Bool := d.secs == 0 && d.nanos == 0

/-- `DEFAULT_MAX_CONCURRENCY` -/
def defaultMaxConcurrency : NonZeroUsize := ⟨16, by decide⟩

namespace SchedulerBuilder

def new (workerId : WorkerId) : SchedulerBuilder F where
  registry := .new
  config :=
    { workerId
      pollInterval := .fromSecs 1 one_le_u64Max
      reaperInterval := .fromSecs 20 (by decide)
      shutdownTimeout := .fromSecs 25 (by decide)
      maxConcurrency := defaultMaxConcurrency }

/-- `register`, with a name that is not validated yet. A refused registration consumes the
builder. -/
def register (b : SchedulerBuilder F) (name : String) (fromValue : Json → Except String A)
    (handler : JobContext → A → F) : Except RegisterError (SchedulerBuilder F) := do
  let name ← (JobName.tryFrom name).mapError .name
  let registry ← (b.registry.register name fromValue handler).mapError .duplicate
  pure { b with registry }

def build (b : SchedulerBuilder F) : Except SchedulerError (Scheduler F) :=
  if b.registry.isEmpty then .error (.config "at least one handler must be registered")
  else if b.config.pollInterval.isZero then
    .error (.config "poll_interval must be greater than zero")
  else if b.config.reaperInterval.isZero then
    .error (.config "reaper_interval must be greater than zero")
  else .ok ⟨b.registry, b.config⟩

/-- Make registrations one after the other, as a chain of `register(..)?` does. -/
def registerAll (b : SchedulerBuilder F) (hs : List (TypedHandler F)) :
    Except RegisterError (SchedulerBuilder F) :=
  hs.foldlM (fun b h => b.register h.name h.fromValue h.handler) b

variable {b b' : SchedulerBuilder F} {name : String} {fromValue : Json → Except String A}
  {handler : JobContext → A → F}

theorem tryFrom_eq_ok_iff {n : JobName} : JobName.tryFrom name = .ok n ↔ n.value = name := by
  unfold JobName.tryFrom
  constructor
  · split
    · intro h
      exact (congrArg JobName.value (Except.ok.inj h)).symm
    · exact fun h => absurd h (by simp)
  · rintro rfl
    split
    · rfl
    · next e he => exact absurd (he.symm.trans n.valid) (by simp)

theorem register_eq_ok_iff : b.register name fromValue handler = .ok b' ↔
    validateIdentifier name = .ok () ∧ name ∉ b.registry.names ∧ b'.config = b.config ∧
      ∃ n : JobName, n.value = name ∧
        b'.registry.handlers = b.registry.handlers ++ [(n, boxed fromValue handler)] := by
  unfold register
  constructor
  · intro h
    obtain ⟨n, hn, h₁⟩ := bind_eq_ok h
    obtain ⟨r, hr, h₂⟩ := bind_eq_ok h₁
    have hname := tryFrom_eq_ok_iff.mp (mapError_eq_ok.mp hn)
    obtain ⟨hnew, hs⟩ := Registry.register_eq_ok_iff.mp (mapError_eq_ok.mp hr)
    obtain rfl := Except.ok.inj h₂
    exact ⟨hname ▸ n.valid, hname ▸ hnew, rfl, n, hname, hs⟩
  · rintro ⟨-, hnew, hconfig, n, rfl, hs⟩
    rw [tryFrom_eq_ok_iff.mpr (rfl : n.value = n.value)]
    have hr : b.registry.register n fromValue handler = .ok b'.registry :=
      Registry.register_eq_ok_iff.mpr ⟨hnew, hs⟩
    obtain ⟨r', c'⟩ := b'
    obtain rfl : c' = b.config := hconfig
    show (do
      let registry ← (b.registry.register n fromValue handler).mapError RegisterError.duplicate
      pure { b with registry }) = _
    rw [hr]
    rfl

theorem register_entries : b.register name fromValue handler = .ok b' ↔
    validateIdentifier name = .ok () ∧ name ∉ b.registry.names ∧ b'.config = b.config ∧
      b'.registry.entries = b.registry.entries ++ [(name, boxed fromValue handler)] := by
  rw [register_eq_ok_iff]
  refine and_congr_right fun hvalid => and_congr_right fun _ => and_congr_right fun _ => ?_
  unfold Registry.entries
  constructor
  · rintro ⟨n, rfl, hs⟩
    simp [hs]
  · intro hs
    refine ⟨⟨name, hvalid⟩, rfl, ?_⟩
    exact List.map_injective_iff.mpr Registry.entry_injective (by simpa using hs)

/-- **What a chain of registrations accepts**: valid names, each of them new. -/
theorem registerAll_eq_ok_iff {hs : List (TypedHandler F)} : b.registerAll hs = .ok b' ↔
    (∀ h ∈ hs, validateIdentifier h.name = .ok ()) ∧
      (b.registry.names ++ hs.map TypedHandler.name).Nodup ∧ b'.config = b.config ∧
      b'.registry.entries = b.registry.entries ++ hs.map TypedHandler.entry := by
  induction hs generalizing b with
  | nil =>
    unfold registerAll
    rw [List.foldlM_nil]
    constructor
    · intro h
      obtain rfl := Except.ok.inj h
      have hdistinct : b.registry.names.Nodup := b.registry.distinct
      simpa using hdistinct
    · rintro ⟨-, -, hconfig, he⟩
      obtain ⟨r, c⟩ := b
      obtain ⟨r', c'⟩ := b'
      obtain rfl : r' = r := Registry.eq_of_entries (by simpa using he)
      obtain rfl : c' = c := hconfig
      rfl
  | cons h hs ih =>
    unfold registerAll at ih ⊢
    rw [List.foldlM_cons]
    constructor
    · intro hfold
      obtain ⟨b₁, h₁, hrest⟩ := bind_eq_ok hfold
      obtain ⟨hvalid, hnew, hconfig, he⟩ := register_entries.mp h₁
      obtain ⟨hvalids, hdistinct, hconfig', he'⟩ := ih.mp hrest
      rw [Registry.names_eq, he, List.map_append, ← Registry.names_eq] at hdistinct
      refine ⟨?_, by simpa using hdistinct, hconfig'.trans hconfig,
        by simp [he', he, TypedHandler.entry]⟩
      rintro i (_ | ⟨_, hi⟩)
      · exact hvalid
      · exact hvalids i hi
    · rintro ⟨hvalid, hdistinct, hconfig, he⟩
      obtain ⟨hv, hvs⟩ := List.forall_mem_cons.mp hvalid
      have hnew : h.name ∉ b.registry.names := fun hmem =>
        (List.disjoint_of_nodup_append hdistinct hmem) (by simp)
      obtain ⟨b₁, h₁⟩ : ∃ b₁, b.register h.name h.fromValue h.handler = .ok b₁ := by
        rcases hr : b.registry.register ⟨h.name, hv⟩ h.fromValue h.handler with e | r
        · exact absurd (Registry.register_eq_error_iff.mp hr).1 hnew
        · exact ⟨⟨r, b.config⟩, register_eq_ok_iff.mpr ⟨hv, hnew, rfl, ⟨h.name, hv⟩, rfl,
            (Registry.register_eq_ok_iff.mp hr).2⟩⟩
      obtain ⟨-, -, hconfig₁, he₁⟩ := register_entries.mp h₁
      rw [h₁]
      refine ih.mpr ⟨hvs, ?_, hconfig.trans hconfig₁.symm, by simp [he, he₁, TypedHandler.entry]⟩
      rw [Registry.names_eq, he₁, List.map_append, ← Registry.names_eq]
      simpa using hdistinct

theorem build_eq_ok_iff {sch : Scheduler F} : b.build = .ok sch ↔
    b.registry.entries ≠ [] ∧ b.config.pollInterval.isZero = false ∧
      b.config.reaperInterval.isZero = false ∧ sch = ⟨b.registry, b.config⟩ := by
  have hempty : b.registry.isEmpty = true ↔ b.registry.entries = [] := by
    simp [Registry.isEmpty, Registry.entries]
  unfold build
  split_ifs with h₁ h₂ h₃
  · simp [hempty.mp h₁]
  · simp [h₂]
  · simp [h₃]
  · simp [mt hempty.mpr h₁, h₂, h₃, eq_comm]

theorem get_eq_some_iff {r : Registry F} {n : String} {handler : Handler F} :
    r.get n = some handler ↔ (n, handler) ∈ r.entries := by
  unfold Registry.get Registry.entries
  rw [Option.map_eq_some_iff]
  constructor
  · rintro ⟨⟨m, h⟩, hl, rfl⟩
    obtain ⟨hmem, rfl⟩ := (lookup_eq_some_iff r.distinct).mp hl
    exact List.mem_map_of_mem (f := fun h : JobName × Handler F => (h.1.value, h.2)) hmem
  · intro hmem
    obtain ⟨⟨m, h⟩, hmem', he⟩ := List.mem_map.mp hmem
    obtain ⟨rfl, rfl⟩ := Prod.mk.inj he
    exact ⟨(m, h), (lookup_eq_some_iff r.distinct).mpr ⟨hmem', rfl⟩, rfl⟩

/-- A refused registration is the first one whose name is invalid or taken. -/
theorem registerAll_eq_error_iff {hs : List (TypedHandler F)} {e : RegisterError} :
    b.registerAll hs = .error e ↔ ∃ pre h post b₁, hs = pre ++ h :: post ∧
      b.registerAll pre = .ok b₁ ∧ b₁.register h.name h.fromValue h.handler = .error e := by
  unfold registerAll
  constructor
  · intro hfold
    induction hs generalizing b with
    | nil => exact absurd hfold (by simp [pure, Except.pure])
    | cons h hs ih =>
      rw [List.foldlM_cons] at hfold
      rcases hr : b.register h.name h.fromValue h.handler with e' | b₁
      · rw [hr] at hfold
        obtain rfl := Except.error.inj hfold
        exact ⟨[], h, hs, b, rfl, rfl, hr⟩
      · rw [hr] at hfold
        obtain ⟨pre, i, post, b₂, rfl, hpre, hi⟩ := ih hfold
        refine ⟨h :: pre, i, post, b₂, rfl, ?_, hi⟩
        rw [List.foldlM_cons, hr]
        exact hpre
  · rintro ⟨pre, h, post, b₁, rfl, hpre, hi⟩
    rw [List.foldlM_append, hpre]
    show List.foldlM (fun b h => b.register h.name h.fromValue h.handler) b₁ (h :: post) = .error e
    rw [List.foldlM_cons, hi]
    rfl

/-- **A chain of registrations**: a scheduler is built from at least one handler, every name that
was registered is answered with its own handler, boxed, and a refusal is about the first invalid or
repeated name. -/
theorem scheduler_registration (config : Config) (hs : List (TypedHandler F)) :
    (∀ b, registerAll ⟨.new, config⟩ hs = .ok b →
      (∀ h ∈ hs, validateIdentifier h.name = .ok ()) ∧
      b.registry.names = hs.map TypedHandler.name ∧
      (∀ n handler, b.registry.get n = some handler ↔
        ∃ h ∈ hs, h.name = n ∧ boxed h.fromValue h.handler = handler) ∧
      ∀ sch, b.build = .ok sch ↔ hs ≠ [] ∧ config.pollInterval.isZero = false ∧
        config.reaperInterval.isZero = false ∧ sch = ⟨b.registry, config⟩) ∧
    ∀ e, registerAll ⟨.new, config⟩ hs = .error e → ∃ pre h post, hs = pre ++ h :: post ∧
      (∃ b, registerAll ⟨.new, config⟩ pre = .ok b) ∧
      ((∃ e', validateIdentifier h.name = .error e' ∧ e = .name e') ∨
        h.name ∈ pre.map TypedHandler.name ∧ ∃ n : JobName, n.value = h.name ∧
          e = .duplicate ⟨n⟩) := by
  have hentries : (Registry.new : Registry F).entries = [] := rfl
  refine ⟨fun b h => ?_, fun e h => ?_⟩
  · obtain ⟨hvalid, -, hconfig, he⟩ := registerAll_eq_ok_iff.mp h
    rw [hentries, List.nil_append] at he
    refine ⟨hvalid, by rw [Registry.names_eq, he, TypedHandler.map_fst_entry],
      fun n handler => ?_, fun sch => ?_⟩
    · rw [get_eq_some_iff, he, List.mem_map]
      exact exists_congr fun h => and_congr_right fun _ => Prod.mk_inj
    · rw [build_eq_ok_iff, he, hconfig, ne_eq, List.map_eq_nil_iff]
  · obtain ⟨pre, i, post, b₁, rfl, hpre, hi⟩ := registerAll_eq_error_iff.mp h
    refine ⟨pre, i, post, rfl, ⟨b₁, hpre⟩, ?_⟩
    have hnames : b₁.registry.names = pre.map TypedHandler.name := by
      rw [Registry.names_eq, (registerAll_eq_ok_iff.mp hpre).2.2.2, hentries, List.nil_append,
        TypedHandler.map_fst_entry]
    unfold register at hi
    rcases hn : JobName.tryFrom i.name with e' | n
    · rw [hn] at hi
      refine Or.inl ⟨e', ?_, (Except.error.inj hi).symm⟩
      unfold JobName.tryFrom at hn
      split at hn
      · exact absurd hn (by simp)
      · next he' => exact he'.trans (congrArg Except.error (Except.error.inj hn))
    · have hname := tryFrom_eq_ok_iff.mp hn
      rw [hn] at hi
      have hi : ((b₁.registry.register n i.fromValue i.handler).mapError RegisterError.duplicate >>=
        fun registry => pure { b₁ with registry }) = .error e := hi
      rcases hr : b₁.registry.register n i.fromValue i.handler with e' | r
      · obtain ⟨hmem, rfl⟩ := Registry.register_eq_error_iff.mp hr
        rw [hnames, hname] at hmem
        rw [hr] at hi
        exact Or.inr ⟨hmem, n, hname, (Except.error.inj hi).symm⟩
      · rw [hr] at hi
        exact absurd hi (by simp [Except.mapError, bind, Except.bind, pure, Except.pure])

end SchedulerBuilder

end PgTaskScheduler
