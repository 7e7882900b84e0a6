import Mathlib

/-!
# What the code relies on from PostgreSQL, Diesel and chrono

`TIMESTAMPTZ` values are microseconds since 2000-01-01 00:00 UTC. PostgreSQL stores the instants
from 4714-11-24 BC up to, but not including, 294277-01-01; an expression whose value lies outside
raises an error. `chrono::DateTime<Utc>` covers a shorter span, and Diesel reports a
deserialization error for a stored instant beyond it.
-/

namespace PgTaskScheduler

/-- Microseconds since 2000-01-01 00:00 UTC. -/
abbrev Timestamp := ℤ

/-- 4714-11-24 BC, the first instant PostgreSQL stores. -/
def minTimestamp : Timestamp := -211813488000000000

/-- 294277-01-01, the first instant PostgreSQL does not store. -/
def endTimestamp : Timestamp := 9223371331200000000

/-- An instant that a `TIMESTAMPTZ` column can hold. -/
abbrev InRange (t : Timestamp) : Prop := minTimestamp ≤ t ∧ t < endTimestamp

/-- Start of the year -262143, `chrono`'s first instant. -/
def chronoMin : Timestamp := -8335547913600000000

/-- Last microsecond of the year 262142, `chrono`'s last one. -/
def chronoMax : Timestamp := 8209320191999999999

/-- An instant that `chrono` can represent. -/
abbrev Decodable (t : Timestamp) : Prop := chronoMin ≤ t ∧ t ≤ chronoMax

/-- `chrono::DateTime<Utc>`, at the microsecond precision Diesel sends and reads. -/
abbrev DateTime := { t : Timestamp // Decodable t }

def i16Max : ℤ := 32767
def i32Max : ℤ := 2147483647
def i64Max : ℤ := 9223372036854775807

def u64Max : ℕ := 18446744073709551615

abbrev InI16 (n : ℤ) : Prop := -32768 ≤ n ∧ n ≤ i16Max
abbrev InI32 (n : ℤ) : Prop := -2147483648 ≤ n ∧ n ≤ i32Max
abbrev InI64 (n : ℤ) : Prop := -9223372036854775808 ≤ n ∧ n ≤ i64Max

/-! ## Errors of a statement -/

/-- Why PostgreSQL or Diesel rejects a statement, a bound value or a returned row. -/
inductive DbError
  | checkViolation (constraint : String)
  | uniqueViolation (index : String)
  /-- `timestamp out of range` -/
  | datetimeOutOfRange
  /-- `integer out of range` -/
  | integerOutOfRange
  /-- `invalid byte sequence for encoding "UTF8": 0x00` -/
  | characterNotInRepertoire
  /-- `\u0000 cannot be converted to text`, for a `jsonb` value -/
  | untranslatableCharacter
  /-- `Tried to deserialize a timestamp that is too large for Chrono` -/
  | timestampTooLarge
  /-- `Unexpected null for non-null column` -/
  | unexpectedNull
deriving DecidableEq, Repr

theorem bind_eq_ok {ε α β : Type} {x : Except ε α} {f : α → Except ε β} {b : β}
    (h : x >>= f = .ok b) : ∃ a, x = .ok a ∧ f a = .ok b := by
  cases x with
  | error e => exact nomatch h
  | ok a => exact ⟨a, rfl, h⟩

/-- Check every row, in order. -/
def checkAll {ε α : Type} (f : α → Except ε Unit) : List α → Except ε Unit
  | [] => .ok ()
  | x :: xs => do f x; checkAll f xs

theorem checkAll_eq_ok_iff {ε α : Type} {f : α → Except ε Unit} {xs : List α} :
    checkAll f xs = .ok () ↔ ∀ x ∈ xs, f x = .ok () := by
  induction xs with
  | nil => simp [checkAll]
  | cons x xs ih =>
    rw [checkAll]
    rcases h : f x with e | ⟨⟩
    · exact iff_of_false (fun he => nomatch he) fun hx => nomatch h.symm.trans (hx x (by simp))
    · simpa [h, bind, Except.bind] using ih

/-- Decode every row, in order; the first failure is the answer. -/
def mapRows {ε α β : Type} (f : α → Except ε β) : List α → Except ε (List β)
  | [] => .ok []
  | x :: xs => do
    let y ← f x
    let ys ← mapRows f xs
    pure (y :: ys)

theorem mapRows_eq_ok_iff {ε α β : Type} {f : α → Except ε β} {xs : List α} {ys : List β} :
    mapRows f xs = .ok ys ↔ List.Forall₂ (fun x y => f x = .ok y) xs ys := by
  induction xs generalizing ys with
  | nil => cases ys <;> simp [mapRows]
  | cons x xs ih =>
    rw [mapRows]
    rcases hx : f x with e | y
    · refine iff_of_false (fun he => nomatch he) fun h => ?_
      cases h with
      | cons hy _ => exact nomatch hx.symm.trans hy
    · rcases hxs : mapRows f xs with e | ys'
      · refine iff_of_false (fun he => nomatch he) fun h => ?_
        cases h with
        | cons _ ht => exact nomatch hxs.symm.trans (ih.mpr ht)
      · constructor
        · intro h
          obtain rfl : y :: ys' = ys := Except.ok.inj h
          exact .cons hx (ih.mp hxs)
        · intro h
          cases h with
          | cons hy ht =>
            obtain rfl := Except.ok.inj (hx.symm.trans hy)
            obtain rfl := Except.ok.inj (hxs.symm.trans (ih.mpr ht))
            rfl

theorem exists_of_mem_forall₂ {α β : Type} {R : α → β → Prop} {xs : List α} {ys : List β}
    (h : List.Forall₂ R xs ys) : ∀ y ∈ ys, ∃ x ∈ xs, R x y := by
  induction h with
  | nil => simp
  | cons hxy _ ih =>
    rintro y (_ | ⟨_, hy⟩)
    · exact ⟨_, List.mem_cons_self, hxy⟩
    · obtain ⟨x, hx, hxy⟩ := ih y hy
      exact ⟨x, List.mem_cons_of_mem _ hx, hxy⟩

theorem exists_of_mem_mapRows {ε α β : Type} {f : α → Except ε β} {xs : List α} {ys : List β}
    (h : mapRows f xs = .ok ys) : ∀ y ∈ ys, ∃ x ∈ xs, f x = .ok y :=
  exists_of_mem_forall₂ (mapRows_eq_ok_iff.mp h)

theorem mapRows_ok_or_error {ε α β : Type} {f : α → Except ε β} {xs : List α} :
    (∃ ys, mapRows f xs = .ok ys) ∨ ∃ x ∈ xs, ∃ e, f x = .error e ∧ mapRows f xs = .error e := by
  induction xs with
  | nil => exact Or.inl ⟨[], rfl⟩
  | cons x xs ih =>
    rcases hx : f x with e | y
    · exact Or.inr ⟨x, List.mem_cons_self, e, hx, by rw [mapRows, hx]; rfl⟩
    · rcases ih with ⟨ys, hys⟩ | ⟨z, hz, e, hze, he⟩
      · exact Or.inl ⟨y :: ys, by rw [mapRows, hx, hys]; rfl⟩
      · exact Or.inr ⟨z, List.mem_cons_of_mem _ hz, e, hze, by rw [mapRows, hx, he]; rfl⟩

theorem mapRows_of_forall {ε α β : Type} {f : α → Except ε β} {P : α → β → Prop} {xs : List α}
    (h : ∀ x ∈ xs, ∃ y, f x = .ok y ∧ P x y) :
    ∃ ys, mapRows f xs = .ok ys ∧ List.Forall₂ P xs ys := by
  induction xs with
  | nil => exact ⟨[], rfl, .nil⟩
  | cons x xs ih =>
    obtain ⟨y, hy, hP⟩ := h x List.mem_cons_self
    obtain ⟨ys, hys, hrest⟩ := ih fun z hz => h z (List.mem_cons_of_mem _ hz)
    exact ⟨y :: ys, by rw [mapRows, hy, hys]; rfl, .cons hP hrest⟩

/-- If every row that fails does so with `e`, and one fails, the answer is `e`. -/
theorem mapRows_eq_error {ε α β : Type} {f : α → Except ε β} {e : ε} {xs : List α} {x : α}
    (hx : x ∈ xs) (he : f x = .error e) (h : ∀ y ∈ xs, ∀ e', f y = .error e' → e' = e) :
    mapRows f xs = .error e := by
  rcases @mapRows_ok_or_error _ _ _ f xs with ⟨ys, hys⟩ | ⟨y, hy, e', hye, hmap⟩
  · obtain ⟨y, -, hy⟩ := exists_of_mem_forall₂ (mapRows_eq_ok_iff.mp hys).flip x hx
    exact nomatch he.symm.trans hy
  · rw [hmap, h y hy e' hye]

/-- The error of the first check that fails, if any. -/
def firstViolation : List (Bool × DbError) → Except DbError Unit
  | [] => .ok ()
  | (true, _) :: cs => firstViolation cs
  | (false, e) :: _ => .error e

theorem firstViolation_eq_ok_iff {cs : List (Bool × DbError)} :
    firstViolation cs = .ok () ↔ ∀ c ∈ cs, c.1 = true := by
  induction cs with
  | nil => simp [firstViolation]
  | cons c cs ih =>
    obtain ⟨b, e⟩ := c
    cases b <;> simp [firstViolation, ih]

@[simp] theorem firstViolation_nil : firstViolation [] = .ok () := rfl

@[simp] theorem firstViolation_cons_eq_ok_iff {b : Bool} {e : DbError}
    {cs : List (Bool × DbError)} :
    firstViolation ((b, e) :: cs) = .ok () ↔ b = true ∧ firstViolation cs = .ok () := by
  simp [firstViolation_eq_ok_iff]

/-! ## Bound and returned values -/

/-- A `TEXT` value cannot contain `U+0000`. -/
abbrev TextOk (s : String) : Prop := '\x00' ∉ s.toList

/-- Bind a string as `TEXT`. -/
def bindText (s : String) : Except DbError Unit :=
  if TextOk s then .ok () else .error .characterNotInRepertoire

theorem bindText_eq_ok_iff {s : String} : bindText s = .ok () ↔ TextOk s := by
  unfold bindText
  split_ifs with h
  · exact iff_of_true rfl h
  · exact iff_of_false (fun he => nomatch he) h

/-- A `serde_json::Value`, by its compact text. The queue stores and copies it and never looks
inside. -/
structure Json where
  text : String
deriving DecidableEq, Repr

/-- Whether JSON text contains the escape `\u0000` (a `\\` before it is an escaped backslash). -/
def hasNulEscape : List Char → Bool
  | '\\' :: 'u' :: '0' :: '0' :: '0' :: '0' :: _ => true
  | '\\' :: _ :: cs => hasNulEscape cs
  | _ :: cs => hasNulEscape cs
  | [] => false

/-- Bind a value as `JSONB`. -/
def bindJson (j : Json) : Except DbError Unit :=
  if hasNulEscape j.text.toList then .error .untranslatableCharacter else .ok ()

/-- Bind a `chrono` instant as `TIMESTAMPTZ`: dates before 4714 BC are out of range. -/
def bindTimestamp (t : DateTime) : Except DbError Unit :=
  if InRange t.val then .ok () else .error .datetimeOutOfRange

/-- Read a `TIMESTAMPTZ` column back as a `chrono` instant. -/
def readTimestamp (t : Timestamp) : Except DbError DateTime :=
  if h : Decodable t then .ok ⟨t, h⟩ else .error .timestampTooLarge

theorem readTimestamp_of_decodable {t : Timestamp} (h : Decodable t) :
    readTimestamp t = .ok ⟨t, h⟩ := dif_pos h

theorem readTimestamp_of_not_decodable {t : Timestamp} (h : ¬ Decodable t) :
    readTimestamp t = .error .timestampTooLarge := dif_neg h

/-- An instant is loaded if `chrono` can represent it. -/
theorem readTimestamp_cases (t : Timestamp) :
    (Decodable t ∧ ∃ d, readTimestamp t = .ok d ∧ d.val = t) ∨
      (¬ Decodable t ∧ readTimestamp t = .error .timestampTooLarge) := by
  by_cases h : Decodable t
  · exact Or.inl ⟨h, ⟨t, h⟩, readTimestamp_of_decodable h, rfl⟩
  · exact Or.inr ⟨h, readTimestamp_of_not_decodable h⟩

theorem readTimestamp_eq_ok {t : Timestamp} {d : DateTime} (h : readTimestamp t = .ok d) :
    d.val = t := by
  unfold readTimestamp at h
  split_ifs at h with hr
  exact congrArg Subtype.val (Except.ok.inj h).symm

theorem decodable_of_readTimestamp {t : Timestamp} {d : DateTime} (h : readTimestamp t = .ok d) :
    Decodable t := readTimestamp_eq_ok h ▸ d.property

/-! ## Intervals -/

/-- Diesel's `PgInterval`: `i32` months and days, `i64` microseconds. -/
structure PgInterval where
  months : ℤ
  days : ℤ
  microseconds : ℤ
  wide : InI32 months ∧ InI32 days ∧ InI64 microseconds
deriving DecidableEq

namespace PgInterval

/-- `EXTRACT(YEAR FROM iv)` -/
def year (iv : PgInterval) : ℤ := iv.months.tdiv 12

/-- `EXTRACT(MONTH FROM iv)` -/
def month (iv : PgInterval) : ℤ := iv.months.tmod 12

/-- `EXTRACT(DAY FROM iv)` -/
def day (iv : PgInterval) : ℤ := iv.days

/-- The value intervals are compared by: a month counts 30 days, a day 24 hours. -/
def span (iv : PgInterval) : ℤ := (iv.months * 30 + iv.days) * 86400000000 + iv.microseconds

/-- The CHECK on `lease_duration`, the same in `scheduler_jobs` and `scheduler_runs`. -/
abbrev LeaseCheck (iv : PgInterval) : Prop :=
  0 < iv.span ∧ iv.year = 0 ∧ iv.month = 0 ∧ iv.day = 0

/-- The CHECK on `retry_backoff`, the same in both tables. -/
abbrev BackoffCheck (iv : PgInterval) : Prop :=
  0 ≤ iv.span ∧ iv.year = 0 ∧ iv.month = 0 ∧ iv.day = 0

theorem year_month_eq_zero_iff {iv : PgInterval} :
    iv.year = 0 ∧ iv.month = 0 ↔ iv.months = 0 := by
  have h := Int.mul_tdiv_add_tmod iv.months 12
  unfold year month
  constructor
  · rintro ⟨hy, hm⟩
    rw [hy, hm] at h
    omega
  · intro hm
    simp [hm]

theorem leaseCheck_iff {iv : PgInterval} :
    iv.LeaseCheck ↔ iv.months = 0 ∧ iv.days = 0 ∧ 0 < iv.microseconds := by
  have h := @year_month_eq_zero_iff iv
  unfold LeaseCheck span day
  constructor
  · rintro ⟨hs, hy, hm, hd⟩
    have hm := h.mp ⟨hy, hm⟩
    exact ⟨hm, hd, by omega⟩
  · rintro ⟨hm, hd, hs⟩
    obtain ⟨hy, hmo⟩ := h.mpr hm
    exact ⟨by omega, hy, hmo, hd⟩

theorem backoffCheck_iff {iv : PgInterval} :
    iv.BackoffCheck ↔ iv.months = 0 ∧ iv.days = 0 ∧ 0 ≤ iv.microseconds := by
  have h := @year_month_eq_zero_iff iv
  unfold BackoffCheck span day
  constructor
  · rintro ⟨hs, hy, hm, hd⟩
    have hm := h.mp ⟨hy, hm⟩
    exact ⟨hm, hd, by omega⟩
  · rintro ⟨hm, hd, hs⟩
    obtain ⟨hy, hmo⟩ := h.mpr hm
    exact ⟨by omega, hy, hmo, hd⟩

end PgInterval

/-- A stored `lease_duration`: the CHECK leaves positive spans without months and days, so adding
one to a timestamp adds its microseconds. -/
abbrev LeaseInterval := { iv : PgInterval // iv.LeaseCheck }

/-- A stored `retry_backoff`. -/
abbrev BackoffInterval := { iv : PgInterval // iv.BackoffCheck }

def LeaseInterval.micros (iv : LeaseInterval) : ℤ := iv.val.microseconds

def BackoffInterval.micros (iv : BackoffInterval) : ℤ := iv.val.microseconds

theorem LeaseInterval.micros_pos (iv : LeaseInterval) : 0 < iv.micros :=
  (PgInterval.leaseCheck_iff.mp iv.property).2.2

end PgTaskScheduler
