import Mathlib.Data.List.DropRight
import Mathlib.Data.List.TakeWhile
import PgTaskScheduler.Postgres

/-!
# Identifiers

Job names, worker ids and deduplication keys are validated when they are built: 1 to 255
characters, no Unicode white space at either end. The CHECK constraints on the columns they are
written to look at ASCII white space only, so a validated identifier passes them.
-/

namespace PgTaskScheduler

/-! ## Ids -/

structure JobId where
  uuid : ℕ
deriving DecidableEq, Repr

structure RunId where
  uuid : ℕ
deriving DecidableEq, Repr

/-- The fencing token of one attempt. -/
structure LeaseToken where
  uuid : ℕ
deriving DecidableEq, Repr

/-! ## Validation -/

def maxIdentifierLen : ℕ := 255

inductive IdentifierError
  | empty
  | surroundingWhitespace
  | tooLong
deriving DecidableEq, Repr

/-- The Unicode property `White_Space`, by which `str::trim` trims. -/
def isWhiteSpace (c : Char) : Bool :=
  let n := c.toNat
  (9 ≤ n && n ≤ 13) || n == 0x20 || n == 0x85 || n == 0xA0 || n == 0x1680 ||
    (0x2000 ≤ n && n ≤ 0x200A) || n == 0x2028 || n == 0x2029 || n == 0x202F || n == 0x205F ||
    n == 0x3000

/-- `str::trim` -/
def trim (s : List Char) : List Char := (s.dropWhile isWhiteSpace).rdropWhile isWhiteSpace

def validateIdentifier (s : String) : Except IdentifierError Unit :=
  if s.toList.isEmpty then .error .empty
  else if trim s.toList ≠ s.toList then .error .surroundingWhitespace
  else if s.toList.length > maxIdentifierLen then .error .tooLong
  else .ok ()

/-- Neither end of the text satisfies `p`. -/
abbrev Unpadded (p : Char → Bool) (s : List Char) : Prop :=
  (∀ c ∈ s.head?, p c = false) ∧ ∀ c ∈ s.getLast?, p c = false

instance (p : Char → Bool) (s : List Char) : Decidable (Unpadded p s) :=
  @instDecidableAnd _ _ (Option.decidableForallMem _) (Option.decidableForallMem _)

theorem dropWhile_eq_self_iff_head {p : Char → Bool} {s : List Char} :
    s.dropWhile p = s ↔ ∀ c ∈ s.head?, p c = false := by
  rcases s with _ | ⟨a, t⟩
  · simp
  · rcases h : p a with _ | _
    · simp [h]
    · have hlen : t.dropWhile p ≠ a :: t := fun he => by
        have := (List.dropWhile_suffix (l := t) p).length_le
        rw [he, List.length_cons] at this
        omega
      simpa [List.dropWhile_cons, h] using hlen

theorem rdropWhile_eq_self_iff_getLast {p : Char → Bool} {s : List Char} :
    s.rdropWhile p = s ↔ ∀ c ∈ s.getLast?, p c = false := by
  rw [List.rdropWhile, List.reverse_eq_iff, dropWhile_eq_self_iff_head, List.head?_reverse]

theorem trim_eq_self_iff {s : List Char} : trim s = s ↔ Unpadded isWhiteSpace s := by
  unfold trim Unpadded
  rw [← dropWhile_eq_self_iff_head, ← rdropWhile_eq_self_iff_getLast]
  constructor
  · intro h
    -- the text is as long as what is left of it, so neither end lost a character
    have hdrop : s.dropWhile isWhiteSpace = s := by
      refine (List.dropWhile_suffix _).eq_of_length_le ?_
      calc s.length = _ := (congrArg List.length h).symm
        _ ≤ (s.dropWhile isWhiteSpace).length := (List.rdropWhile_prefix _ _).length_le
    exact ⟨hdrop, by rwa [hdrop] at h⟩
  · rintro ⟨hhead, hlast⟩
    rw [hhead, hlast]

theorem validateIdentifier_eq_ok_iff {s : String} : validateIdentifier s = .ok () ↔
    s.toList ≠ [] ∧ Unpadded isWhiteSpace s.toList ∧ s.toList.length ≤ 255 := by
  unfold validateIdentifier maxIdentifierLen
  rw [← trim_eq_self_iff]
  split_ifs with h₁ h₂ h₃
  · simp_all
  · simp [h₂]
  · exact iff_of_false (fun he => nomatch he) fun h => absurd h.2.2 (by omega)
  · exact iff_of_true rfl ⟨by simpa using h₁, by simpa using h₂, by omega⟩

/-! ## The CHECK constraints -/

/-- POSIX `[[:space:]]`, for ASCII. -/
def isPosixSpace (c : Char) : Bool :=
  let n := c.toNat
  (9 ≤ n && n ≤ 13) || n == 0x20

/-- `char_length(s) BETWEEN 1 AND 255` -/
abbrev LengthCheck (s : String) : Prop := 1 ≤ s.toList.length ∧ s.toList.length ≤ 255

/-- `char_length(s) BETWEEN 1 AND 255 AND s !~ '^[[:space:]]|[[:space:]]$'` -/
abbrev NameCheck (s : String) : Prop := LengthCheck s ∧ Unpadded isPosixSpace s.toList

theorem isWhiteSpace_of_isPosixSpace {c : Char} (h : isWhiteSpace c = false) :
    isPosixSpace c = false := by
  simp only [isWhiteSpace, Bool.or_eq_false_iff] at h
  simp only [isPosixSpace, h, Bool.or_self]

/-- A validated identifier satisfies the CHECKs on names, worker ids and keys. -/
theorem nameCheck_of_validateIdentifier {s : String} (h : validateIdentifier s = .ok ()) :
    NameCheck s := by
  obtain ⟨hne, ⟨hhead, hlast⟩, hlen⟩ := validateIdentifier_eq_ok_iff.mp h
  exact ⟨⟨List.length_pos_of_ne_nil hne, hlen⟩,
    fun c hc => isWhiteSpace_of_isPosixSpace (hhead c hc),
    fun c hc => isWhiteSpace_of_isPosixSpace (hlast c hc)⟩

/-! ## Identifier types -/

structure JobName where
  value : String
  valid : validateIdentifier value = .ok ()

structure WorkerId where
  value : String
  valid : validateIdentifier value = .ok ()

structure DeduplicationKey where
  value : String
  valid : validateIdentifier value = .ok ()

def JobName.tryFrom (s : String) : Except IdentifierError JobName :=
  match h : validateIdentifier s with
  | .ok () => .ok ⟨s, h⟩
  | .error e => .error e

def WorkerId.tryFrom (s : String) : Except IdentifierError WorkerId :=
  match h : validateIdentifier s with
  | .ok () => .ok ⟨s, h⟩
  | .error e => .error e

def DeduplicationKey.tryFrom (s : String) : Except IdentifierError DeduplicationKey :=
  match h : validateIdentifier s with
  | .ok () => .ok ⟨s, h⟩
  | .error e => .error e

theorem JobName.nameCheck (n : JobName) : NameCheck n.value :=
  nameCheck_of_validateIdentifier n.valid

theorem WorkerId.nameCheck (w : WorkerId) : NameCheck w.value :=
  nameCheck_of_validateIdentifier w.valid

theorem DeduplicationKey.lengthCheck (k : DeduplicationKey) : LengthCheck k.value :=
  (nameCheck_of_validateIdentifier k.valid).1

end PgTaskScheduler
