import Mathlib.Data.List.Sort
import Mathlib.Data.List.Nodup

/-!
# Keyed tables as lists

A table is the list of its rows, a key column is a function of the row. `lookup` finds a row by
its key, `overwrite` stores new versions of existing rows, `remove` deletes rows.

Two ways a statement picks rows when its snapshot and the newest committed rows may differ:
`targets` for an `UPDATE` (matched in the snapshot, matched again on the newest version) and
`selectForUpdate` for `SELECT … ORDER BY … FOR UPDATE SKIP LOCKED LIMIT`, which orders the rows of
the snapshot and answers their newest versions.
-/

namespace Tables

variable {α κ : Type} {key : α → κ} {k : κ} {a b : α} {t new : List α}

/-! ## Keys -/

/-- No two rows share a key. -/
def Keyed (key : α → κ) (t : List α) : Prop := (t.map key).Nodup

instance [DecidableEq κ] : Decidable (Keyed key t) := inferInstanceAs (Decidable (List.Nodup _))

theorem Keyed.of_cons (h : Keyed key (a :: t)) : Keyed key t := by
  unfold Keyed at *
  exact (List.nodup_cons.mp (by simpa using h)).2

theorem Keyed.not_mem_of_cons (h : Keyed key (a :: t)) : ∀ b ∈ t, key b ≠ key a := by
  intro b hb he
  have h' : key a ∉ t.map key := (List.nodup_cons.mp (by simpa [Keyed] using h)).1
  exact h' (List.mem_map.mpr ⟨b, hb, he⟩)

theorem eq_of_key (hk : Keyed key t) (ha : a ∈ t) (hb : b ∈ t) (h : key a = key b) : a = b :=
  List.inj_on_of_nodup_map hk ha hb h

theorem Keyed.sublist (hk : Keyed key t) {u : List α} (h : u.Sublist t) : Keyed key u :=
  List.Nodup.sublist (h.map key) hk

theorem Keyed.filter (hk : Keyed key t) (p : α → Bool) : Keyed key (t.filter p) :=
  hk.sublist List.filter_sublist

theorem Keyed.perm (hk : Keyed key t) {u : List α} (h : u.Perm t) : Keyed key u :=
  (h.map key).nodup_iff.mpr hk

/-- A row that satisfies `p` alone is all that `filter p` leaves. -/
theorem filter_eq_singleton (hk : Keyed key t) {p : α → Bool} (ha : a ∈ t) (hp : p a)
    (h : ∀ b ∈ t, p b → key b = key a) : t.filter p = [a] := by
  induction t with
  | nil => simp at ha
  | cons b t ih =>
    rcases List.mem_cons.mp ha with rfl | hat
    · have : t.filter p = [] := List.filter_eq_nil_iff.mpr fun b hb hpb =>
        hk.not_mem_of_cons b hb (h b (List.mem_cons_of_mem _ hb) hpb)
      simp [hp, this]
    · have hb : ¬ p b := fun hpb =>
        hk.not_mem_of_cons a hat (h b List.mem_cons_self hpb).symm
      rw [List.filter_cons_of_neg hb]
      exact ih hk.of_cons hat fun c hc => h c (List.mem_cons_of_mem _ hc)

theorem eq_nil_or_singleton (hk : Keyed key t) (h : ∀ a ∈ t, key a = k) :
    t = [] ∨ ∃ a, t = [a] := by
  match t, hk, h with
  | [], _, _ => exact Or.inl rfl
  | [a], _, _ => exact Or.inr ⟨a, rfl⟩
  | a :: b :: t, hk, h =>
    have hne := hk.not_mem_of_cons b (by simp)
    exact absurd ((h b (by simp)).trans (h a (by simp)).symm) hne

/-- A row and the others. -/
theorem perm_cons_filter [DecidableEq κ] (hk : Keyed key t) (ha : a ∈ t) :
    t.Perm (a :: t.filter fun b => decide (key b ≠ key a)) := by
  refine (List.perm_ext_iff_of_nodup (List.Nodup.of_map _ hk) ?_).mpr fun b => ?_
  · refine List.nodup_cons.mpr ⟨fun h => ?_, (List.Nodup.of_map _ hk).filter _⟩
    simp at h
  · rw [List.mem_cons, List.mem_filter, decide_eq_true_eq]
    constructor
    · intro hb
      by_cases he : key b = key a
      · exact Or.inl (eq_of_key hk hb ha he)
      · exact Or.inr ⟨hb, he⟩
    · rintro (rfl | ⟨hb, -⟩)
      · exact ha
      · exact hb

/-- Looking rows up again by their key keeps the keys in place. -/
theorem map_key_filterMap_sublist {f : α → Option α} (hf : ∀ a b, f a = some b → key b = key a)
    (t : List α) : ((t.filterMap f).map key).Sublist (t.map key) := by
  induction t with
  | nil => simp
  | cons a t ih =>
    rcases h : f a with _ | b
    · rw [List.filterMap_cons_none h, List.map_cons]
      exact ih.cons _
    · rw [List.filterMap_cons_some h, List.map_cons, List.map_cons, hf a b h]
      exact ih.cons_cons _

/-! ## Lookup by key -/

variable [DecidableEq κ]

/-- The first row with key `k`. -/
def lookup (key : α → κ) (k : κ) (t : List α) : Option α := t.find? fun a => key a = k

@[simp] theorem lookup_nil : lookup key k ([] : List α) = none := rfl

theorem lookup_cons (a : α) (t : List α) :
    lookup key k (a :: t) = if key a = k then some a else lookup key k t := by
  unfold lookup
  rw [List.find?_cons]
  by_cases h : key a = k <;> simp [h]

theorem mem_of_lookup (h : lookup key k t = some a) : a ∈ t := List.mem_of_find?_eq_some h

theorem key_of_lookup (h : lookup key k t = some a) : key a = k := by
  simpa using List.find?_some h

theorem lookup_eq_none_iff : lookup key k t = none ↔ ∀ a ∈ t, key a ≠ k := by
  simp [lookup, List.find?_eq_none]

theorem lookup_isSome_iff : (lookup key k t).isSome ↔ ∃ a ∈ t, key a = k := by
  simp [lookup, List.find?_isSome]

theorem lookup_append (t u : List α) :
    lookup key k (t ++ u) = (lookup key k t).or (lookup key k u) := List.find?_append

theorem lookup_of_mem (hk : Keyed key t) (ha : a ∈ t) : lookup key (key a) t = some a := by
  obtain ⟨b, hb⟩ : ∃ b, lookup key (key a) t = some b :=
    Option.isSome_iff_exists.mp (lookup_isSome_iff.mpr ⟨a, ha, rfl⟩)
  rw [hb, eq_of_key hk (mem_of_lookup hb) ha (key_of_lookup hb)]

theorem lookup_eq_some_iff (hk : Keyed key t) :
    lookup key k t = some a ↔ a ∈ t ∧ key a = k := by
  constructor
  · intro h
    exact ⟨mem_of_lookup h, key_of_lookup h⟩
  · rintro ⟨ha, rfl⟩
    exact lookup_of_mem hk ha

theorem lookup_map {f : α → α} (hf : ∀ a, key (f a) = key a) (t : List α) :
    lookup key k (t.map f) = (lookup key k t).map f := by
  induction t with
  | nil => rfl
  | cons a t ih =>
    rw [List.map_cons, lookup_cons, lookup_cons, hf, ih]
    by_cases h : key a = k <;> simp [h]

/-! ## Storing and deleting rows -/

/-- Every row whose key occurs in `new` is replaced by that new version. -/
def overwrite (key : α → κ) (new t : List α) : List α :=
  t.map fun a => (lookup key (key a) new).getD a

@[simp] theorem overwrite_nil (t : List α) : overwrite key [] t = t := by
  simp [overwrite]

theorem key_getD_lookup (key : α → κ) (new : List α) (a : α) :
    key ((lookup key (key a) new).getD a) = key a := by
  rcases h : lookup key (key a) new with _ | b
  · rfl
  · exact key_of_lookup h

@[simp] theorem map_key_overwrite (new t : List α) : (overwrite key new t).map key = t.map key := by
  unfold overwrite
  rw [List.map_map]
  exact List.map_congr_left fun a _ => key_getD_lookup key new a

theorem Keyed.overwrite (hk : Keyed key t) (new : List α) : Keyed key (overwrite key new t) := by
  unfold Keyed
  rw [map_key_overwrite]
  exact hk

theorem lookup_overwrite (new t : List α) :
    lookup key k (overwrite key new t) =
      (lookup key k t).map fun a => (lookup key k new).getD a := by
  induction t with
  | nil => rfl
  | cons a t ih =>
    have hc : overwrite key new (a :: t) =
        (lookup key (key a) new).getD a :: overwrite key new t := rfl
    rw [hc, lookup_cons, lookup_cons, key_getD_lookup key]
    by_cases h : key a = k
    · simp [h]
    · rw [if_neg h, if_neg h, ih]

theorem mem_overwrite (hb : b ∈ overwrite key new t) :
    b ∈ t ∨ b ∈ new ∧ ∃ a ∈ t, key a = key b := by
  obtain ⟨a, ha, rfl⟩ := List.mem_map.mp hb
  rcases h : lookup key (key a) new with _ | c
  · exact Or.inl ha
  · exact Or.inr ⟨mem_of_lookup h, a, ha, (key_of_lookup h).symm⟩

/-- New versions that keep a column keep it in place. -/
theorem map_overwrite {β : Type} {u : α → β}
    (h : ∀ b ∈ new, ∀ a ∈ t, key a = key b → u b = u a) :
    (overwrite key new t).map u = t.map u := by
  unfold overwrite
  rw [List.map_map]
  refine List.map_congr_left fun a ha => ?_
  rcases hl : lookup key (key a) new with _ | b
  · simp [hl]
  · simpa [hl] using h b (mem_of_lookup hl) a ha (key_of_lookup hl).symm

/-- Only the new versions of rows that are there matter. -/
theorem overwrite_congr {new' : List α}
    (h : ∀ a ∈ t, lookup key (key a) new = lookup key (key a) new') :
    overwrite key new t = overwrite key new' t :=
  List.map_congr_left fun a ha => by rw [h a ha]

/-- Overwriting a row with itself. -/
theorem overwrite_self (hk : Keyed key t) (hb : b ∈ t) : overwrite key [b] t = t := by
  refine (List.map_congr_left fun a ha => ?_).trans (List.map_id t)
  rw [lookup_cons, lookup_nil]
  split_ifs with he
  · exact eq_of_key hk hb ha he
  · rfl

/-- Overwriting the last row of a table. -/
theorem overwrite_last (hk : Keyed key (t ++ [a])) (hb : key b = key a) :
    overwrite key [b] (t ++ [a]) = t ++ [b] := by
  unfold overwrite
  rw [List.map_append]
  congr 1
  · refine (List.map_congr_left fun c hc => ?_).trans (List.map_id t)
    have hne : key c ≠ key a := by
      intro he
      unfold Keyed at hk
      rw [List.map_append, List.nodup_append] at hk
      exact hk.2.2 _ (List.mem_map_of_mem hc) _ (by simp) he
    simp [lookup_cons, hb, Ne.symm hne]
  · simp [lookup_cons, hb]

/-- The rows whose key is not among `ks`. -/
def remove (key : α → κ) (ks : List κ) (t : List α) : List α := t.filter fun a => key a ∉ ks

@[simp] theorem remove_nil (t : List α) : remove key [] t = t := by
  simp [remove]

theorem Keyed.remove (hk : Keyed key t) (ks : List κ) : Keyed key (remove key ks t) :=
  hk.filter _

theorem lookup_remove (ks : List κ) (t : List α) :
    lookup key k (remove key ks t) = if k ∈ ks then none else lookup key k t := by
  induction t with
  | nil => simp [remove]
  | cons a t ih =>
    have hc : Tables.remove key ks (a :: t) =
        if key a ∉ ks then a :: Tables.remove key ks t else Tables.remove key ks t := by
      unfold Tables.remove
      by_cases h : key a ∈ ks <;> simp [h]
    rw [hc, lookup_cons]
    by_cases ha : key a ∈ ks
    · rw [if_neg (by simpa using ha), ih]
      by_cases hk : k ∈ ks
      · rw [if_pos hk, if_pos hk]
      · rw [if_neg hk, if_neg hk, if_neg fun e : key a = k => hk (e ▸ ha)]
    · rw [if_pos ha, lookup_cons, ih]
      by_cases he : key a = k
      · subst he
        rw [if_pos rfl, if_pos rfl, if_neg ha]
      · rw [if_neg he, if_neg he]

theorem filter_overwrite (p : κ → Bool) (new t : List α) :
    (overwrite key new t).filter (fun a => p (key a)) =
      overwrite key new (t.filter fun a => p (key a)) := by
  unfold overwrite
  rw [List.filter_map]
  refine congrArg (List.map _) (List.filter_congr fun a _ => ?_)
  rw [Function.comp_apply, key_getD_lookup key]

/-- Overwriting a row with one that does not satisfy `p`. -/
theorem filter_overwrite_of_not {p : α → Bool} (hb : p b = false) (t : List α) :
    (overwrite key [b] t).filter p = (t.filter p).filter fun a => decide (key a ≠ key b) := by
  unfold overwrite
  rw [List.filter_map, List.filter_filter]
  induction t with
  | nil => rfl
  | cons a t ih =>
    simp only [lookup_cons, lookup_nil] at ih ⊢
    by_cases ha : key b = key a
    · simpa [ha, hb] using ih
    · have ha' : key a ≠ key b := fun he => ha he.symm
      rcases hpa : p a <;> simp [ha, ha', hpa, ih]

theorem mem_remove (ks : List κ) : a ∈ remove key ks t ↔ a ∈ t ∧ key a ∉ ks := by
  simp [remove]

/-! ## Edits -/

/-- What a statement does to a table: new versions of rows, new rows, keys of deleted rows. -/
structure Edit (α κ : Type) where
  update : List α := []
  insert : List α := []
  delete : List κ := []

def Edit.apply (key : α → κ) (e : Edit α κ) (t : List α) : List α :=
  remove key e.delete (overwrite key e.update t ++ e.insert)

variable {e : Edit α κ}

@[simp] theorem Edit.apply_empty (t : List α) : ({} : Edit α κ).apply key t = t := by
  simp [Edit.apply]

theorem Edit.lookup_apply (t : List α) :
    lookup key k (e.apply key t) = if k ∈ e.delete then none else
      ((lookup key k t).map fun a => (lookup key k e.update).getD a).or
        (lookup key k e.insert) := by
  rw [Edit.apply, lookup_remove, lookup_append, lookup_overwrite]

theorem Edit.lookup_apply_update (b : α) (t : List α) :
    lookup key k (({ update := [b] } : Edit α κ).apply key t) =
      if key b = k then (lookup key k t).map fun _ => b else lookup key k t := by
  rw [Edit.lookup_apply, if_neg List.not_mem_nil, lookup_nil, Option.or_none, lookup_cons,
    lookup_nil]
  split_ifs <;> simp

theorem Edit.mem_apply (h : b ∈ e.apply key t) :
    b ∈ t ∨ b ∈ e.insert ∨ b ∈ e.update ∧ ∃ a ∈ t, key a = key b := by
  rw [Edit.apply, mem_remove, List.mem_append] at h
  rcases h.1 with h | h
  · exact (mem_overwrite h).imp_right Or.inr
  · exact Or.inr (Or.inl h)

/-- Inserted rows have new, distinct keys. -/
def Edit.Fresh (key : α → κ) (e : Edit α κ) (t : List α) : Prop :=
  Keyed key e.insert ∧ ∀ b ∈ e.insert, ∀ a ∈ t, key a ≠ key b

theorem Keyed.apply (hk : Keyed key t) (h : e.Fresh key t) : Keyed key (e.apply key t) := by
  refine Keyed.remove ?_ _
  unfold Keyed
  rw [List.map_append, map_key_overwrite]
  refine List.Nodup.append hk h.1 fun x hx hx' => ?_
  obtain ⟨a, ha, rfl⟩ := List.mem_map.mp hx
  obtain ⟨b, hb, hba⟩ := List.mem_map.mp hx'
  exact h.2 b hb a ha hba.symm

/-! ## Partial unique indexes -/

/-- No two rows share an index entry; a row outside the index has none. -/
def UniqueIndex {ι : Type} (u : α → Option ι) (t : List α) : Prop := (t.filterMap u).Nodup

section UniqueIndex

variable {ι : Type} {u : α → Option ι} {i : ι}

theorem UniqueIndex.eq (h : UniqueIndex u t) (ha : a ∈ t) (hb : b ∈ t) (hua : u a = some i)
    (hub : u b = some i) : a = b := by
  induction t with
  | nil => simp at ha
  | cons c t ih =>
    have hnew : u c = some i → ∀ d ∈ t, u d ≠ some i := by
      intro hc d hd hdi
      have h' := h
      rw [UniqueIndex, List.filterMap_cons_some hc] at h'
      exact (List.nodup_cons.mp h').1 (List.mem_filterMap.mpr ⟨d, hd, hdi⟩)
    have ht : UniqueIndex u t := List.Nodup.sublist ((List.sublist_cons_self c t).filterMap u) h
    rcases List.mem_cons.mp ha with rfl | ha' <;> rcases List.mem_cons.mp hb with rfl | hb'
    · rfl
    · exact absurd hub (hnew hua b hb')
    · exact absurd hua (hnew hub a ha')
    · exact ih ht ha' hb'

theorem UniqueIndex.apply (h : UniqueIndex u t)
    (hu : ∀ b ∈ e.update, ∀ a ∈ t, key a = key b → u b = u a) (hi : UniqueIndex u e.insert)
    (hf : ∀ b ∈ e.insert, ∀ a ∈ t, ∀ i, u b = some i → u a ≠ some i) :
    UniqueIndex u (e.apply key t) := by
  have hover : (overwrite key e.update t).filterMap u = t.filterMap u := by
    have hid : ∀ l : List α, l.filterMap u = (l.map u).filterMap id := fun l => by
      rw [List.filterMap_map]
      rfl
    rw [hid, map_overwrite hu, ← hid]
  refine List.Nodup.sublist (List.filter_sublist.filterMap u) ?_
  rw [List.filterMap_append, hover]
  refine List.Nodup.append h hi fun x hx hx' => ?_
  obtain ⟨a, ha, hax⟩ := List.mem_filterMap.mp hx
  obtain ⟨b, hb, hbx⟩ := List.mem_filterMap.mp hx'
  exact hf b hb a ha x hbx hax

/-- An index entry that no inserted or deleted row has is as present as before. -/
theorem Edit.any_apply [DecidableEq ι]
    (hu : ∀ b ∈ e.update, ∀ a ∈ t, key a = key b → u b = u a)
    (hi : ∀ b ∈ e.insert, u b ≠ some i) (hd : ∀ a ∈ t, key a ∈ e.delete → u a ≠ some i) :
    ((e.apply key t).any fun a => u a = some i) = t.any fun a => u a = some i := by
  rw [Bool.eq_iff_iff]
  simp only [List.any_eq_true, decide_eq_true_eq, Edit.apply, mem_remove, List.mem_append]
  have hmap : (overwrite key e.update t).map (fun a => (key a, u a)) =
      t.map fun a => (key a, u a) :=
    map_overwrite fun b hb a ha hk => by rw [hu b hb a ha hk, hk]
  constructor
  · rintro ⟨b, ⟨hb | hb, -⟩, hbi⟩
    · have hmem : (key b, u b) ∈ t.map fun a => (key a, u a) :=
        hmap ▸ List.mem_map_of_mem (f := fun a => (key a, u a)) hb
      obtain ⟨a, ha, he⟩ := List.mem_map.mp hmem
      exact ⟨a, ha, (congrArg Prod.snd he).trans hbi⟩
    · exact absurd hbi (hi b hb)
  · rintro ⟨a, ha, hai⟩
    have hmem : (key a, u a) ∈ (overwrite key e.update t).map fun a => (key a, u a) :=
      hmap ▸ List.mem_map_of_mem (f := fun a => (key a, u a)) ha
    obtain ⟨b, hb, he⟩ := List.mem_map.mp hmem
    obtain ⟨hk, hue⟩ := Prod.mk.inj he
    exact ⟨b, ⟨Or.inl hb, fun hdel => hd a ha (hk ▸ hdel) hai⟩, hue.trans hai⟩

end UniqueIndex

/-! ## Rows an `UPDATE` touches -/

/-- The rows that match in the snapshot and whose newest version still matches. -/
def targets (key : α → κ) (p : α → Bool) (snap cur : List α) : List α :=
  cur.filter fun a => p a && snap.any fun b => decide (key b = key a) && p b

theorem mem_targets {p : α → Bool} {snap cur : List α} :
    a ∈ targets key p snap cur ↔ a ∈ cur ∧ p a ∧ ∃ b ∈ snap, key b = key a ∧ p b := by
  simp [targets]

theorem Keyed.targets {p : α → Bool} {snap cur : List α} (hk : Keyed key cur) :
    Keyed key (targets key p snap cur) := hk.filter _

/-- Without a concurrent writer an `UPDATE` touches the rows that match. -/
theorem targets_self (p : α → Bool) (t : List α) : targets key p t t = t.filter p := by
  unfold targets
  refine List.filter_congr fun a ha => ?_
  rcases h : p a with _ | _
  · simp
  · simp only [Bool.true_and, List.any_eq_true, Bool.and_eq_true, decide_eq_true_eq]
    exact ⟨a, ha, rfl, h⟩

/-! ## Ordered, limited, lock-skipping selection -/

/-- `SELECT … WHERE p ORDER BY le FOR UPDATE SKIP LOCKED LIMIT n`: the order is that of the
snapshot, a locked row is passed over, and a row is answered in its newest version when that one
still satisfies `p`. -/
def selectForUpdate (key : α → κ) (p : α → Bool) (le : α → α → Prop) [DecidableRel le]
    (skip : κ → Bool) (n : ℕ) (snap cur : List α) : List α :=
  (((snap.filter p).insertionSort le).filterMap fun a =>
    if skip (key a) then none else (lookup key (key a) cur).filter p).take n

section Select

variable {p : α → Bool} {le : α → α → Prop} [DecidableRel le] {skip : κ → Bool} {n : ℕ}
  {snap cur : List α}

theorem mem_selectForUpdate (h : a ∈ selectForUpdate key p le skip n snap cur) :
    lookup key (key a) cur = some a ∧ p a ∧ skip (key a) = false ∧
      ∃ b ∈ snap, key b = key a ∧ p b := by
  obtain ⟨b, hb, hba⟩ := List.mem_filterMap.mp (List.mem_of_mem_take h)
  rw [List.mem_insertionSort, List.mem_filter] at hb
  split_ifs at hba with hs
  obtain ⟨hl, hp⟩ := Option.filter_eq_some_iff.mp hba
  have hk := key_of_lookup hl
  refine ⟨by rw [hk]; exact hl, hp, ?_, b, hb.1, hk.symm, hb.2⟩
  rw [hk]
  simpa using hs

theorem keyed_selectForUpdate (hk : Keyed key snap) :
    Keyed key (selectForUpdate key p le skip n snap cur) := by
  have hs : Keyed key ((snap.filter p).insertionSort le) :=
    (hk.filter p).perm (List.perm_insertionSort le _)
  refine Keyed.sublist (t := ((snap.filter p).insertionSort le).filterMap _) ?_
    (List.take_sublist _ _)
  refine List.Nodup.sublist (map_key_filterMap_sublist ?_ _) hs
  intro a b h
  split_ifs at h
  exact key_of_lookup (Option.filter_eq_some_iff.mp h).1

/-- Without a concurrent writer the selection is the first `n` unlocked matching rows. -/
theorem selectForUpdate_self (hk : Keyed key t) :
    selectForUpdate key p le skip n t t =
      (((t.filter p).insertionSort le).filter fun a => !skip (key a)).take n := by
  unfold selectForUpdate
  congr 1
  rw [← List.filterMap_eq_filter (p := fun a => !skip (key a))]
  refine List.filterMap_congr fun a ha => ?_
  rw [List.mem_insertionSort, List.mem_filter] at ha
  rw [lookup_of_mem hk ha.1]
  rcases hs : skip (key a) <;> simp [hs, ha.2, Option.guard, Option.filter]

/-- A stable sort finds the same first row among the rows that satisfy `p`, if no other row precedes
one of them. -/
theorem head?_insertionSort_filter [Std.Total le] (hp : ∀ a b, le a b → p b → p a)
    (h : t.filter p ≠ []) :
    (t.insertionSort le).head? = ((t.filter p).insertionSort le).head? := by
  have hcons : ∀ (a : α) (t : List α), ((a :: t).insertionSort le).head? =
      match (t.insertionSort le).head? with
      | none => some a
      | some b => if le a b then some a else some b := by
    intro a t
    rw [List.insertionSort_cons]
    rcases t.insertionSort le with _ | ⟨b, u⟩
    · rfl
    · rw [List.orderedInsert]
      split_ifs <;> simp_all
  have hhead : ∀ {t : List α} {b : α}, (t.insertionSort le).head? = some b → b ∈ t :=
    fun hb => (List.mem_insertionSort le).mp (List.mem_of_head? hb)
  induction t with
  | nil => rfl
  | cons a t ih =>
    by_cases ha : p a
    · rw [List.filter_cons_of_pos ha, hcons, hcons]
      by_cases hnil : t.filter p = []
      · rw [hnil]
        rcases hb : (t.insertionSort le).head? with _ | b
        · rfl
        · have hpb : ¬ p b := List.filter_eq_nil_iff.mp hnil b (hhead hb)
          have hle : le a b := (Std.Total.total a b).resolve_right fun hba => hpb (hp b a hba ha)
          simp [hle]
      · rw [ih hnil]
    · rw [List.filter_cons_of_neg ha] at h ⊢
      rw [hcons, ih h]
      rcases hb : ((t.filter p).insertionSort le).head? with _ | b
      · rw [List.head?_eq_none_iff] at hb
        exact absurd (List.perm_nil.mp (hb ▸ List.perm_insertionSort le _).symm) h
      · have hpb : p b := (List.mem_filter.mp (hhead hb)).2
        have hle : ¬ le a b := fun hab => ha (hp a b hab hpb)
        simp [hle]

/-- `selected` lists the first `n` of `rows` in the order `le`. -/
structure First (le : α → α → Prop) (n : ℕ) (rows selected : List α) : Prop where
  sorted : selected.Pairwise le
  mem : ∀ a ∈ selected, a ∈ rows
  nodup : selected.Nodup
  length : selected.length = min n rows.length
  /-- a row that is left out does not precede a selected one -/
  rest : ∀ b ∈ rows, b ∉ selected → ∀ a ∈ selected, le a b

theorem selectForUpdate_first [Std.Total le] [IsTrans α le] (hk : Keyed key t) :
    First le n (t.filter fun a => p a && !skip (key a)) (selectForUpdate key p le skip n t t) := by
  rw [selectForUpdate_self hk]
  set rows := ((t.filter p).insertionSort le).filter fun a => !skip (key a)
  have hsorted : rows.Pairwise le := (List.pairwise_insertionSort le _).filter _
  have hperm : rows.Perm (t.filter fun a => p a && !skip (key a)) := by
    have hfilter : (t.filter fun a => p a && !skip (key a)) =
        (t.filter p).filter fun a => !skip (key a) := by
      rw [List.filter_filter]
      exact List.filter_congr fun a _ => Bool.and_comm ..
    rw [hfilter]
    exact (List.perm_insertionSort le (t.filter p)).filter _
  have hnodup : t.Nodup := List.Nodup.of_map key hk
  refine ⟨hsorted.sublist (List.take_sublist _ _), fun a ha => ?_, ?_, ?_, fun b hb hne a ha => ?_⟩
  · exact hperm.mem_iff.mp (List.mem_of_mem_take ha)
  · exact (hperm.nodup_iff.mpr (hnodup.filter _)).sublist (List.take_sublist _ _)
  · rw [List.length_take, hperm.length_eq]
  · have hb' : b ∈ rows := hperm.mem_iff.mpr hb
    rw [← List.take_append_drop n rows] at hb' hsorted
    have hdrop : b ∈ rows.drop n := (List.mem_append.mp hb').resolve_left hne
    exact (List.pairwise_append.mp hsorted).2.2 a ha b hdrop

end Select

section First

variable {le : α → α → Prop} {n : ℕ} {rows selected : List α}

theorem First.length_le (h : First le n rows selected) : selected.length ≤ rows.length := by
  rw [h.length]
  exact min_le_right _ _

/-- What is left when the selected rows are taken away. -/
theorem First.length_rest [DecidableEq α] (h : First le n rows selected) (hrows : rows.Nodup) :
    (rows.filter fun a => a ∉ selected).length = rows.length - n := by
  have hperm : (rows.filter fun a => a ∈ selected).Perm selected := by
    refine (List.perm_ext_iff_of_nodup (hrows.filter _) h.nodup).mpr fun a => ?_
    simp only [List.mem_filter, decide_eq_true_eq]
    exact ⟨And.right, fun ha => ⟨h.mem a ha, ha⟩⟩
  have hsplit := List.length_eq_length_filter_add (l := rows) fun a => decide (a ∈ selected)
  have hlength := h.length
  rw [hperm.length_eq] at hsplit
  simp only [decide_not] at *
  omega

/-- The selection, seen among the rows that satisfy `p`, if no other row precedes one of them. -/
theorem First.filter (h : First le n rows selected) (hrows : rows.Nodup) {p : α → Bool}
    (hp : ∀ a ∈ rows, ∀ b, le a b → p b → p a) :
    First le n (rows.filter p) (selected.filter p) := by
  have hsub : selected.filter p ⊆ rows.filter p := fun a ha =>
    List.mem_filter.mpr ⟨h.mem a (List.mem_filter.mp ha).1, (List.mem_filter.mp ha).2⟩
  have hrest : ∀ b ∈ rows, b ∉ selected → p b → selected.filter p = selected ∧
      selected.length = n := by
    intro b hb hne hpb
    refine ⟨List.filter_eq_self.mpr fun a ha => hp a (h.mem a ha) b (h.rest b hb hne a ha) hpb, ?_⟩
    have hcons : (b :: selected).length ≤ rows.length :=
      (List.subperm_of_subset (List.nodup_cons.mpr ⟨hne, h.nodup⟩)
        (List.cons_subset.mpr ⟨hb, h.mem⟩)).length_le
    have hlength := h.length
    rw [List.length_cons] at hcons
    omega
  refine ⟨h.sorted.filter _, hsub, h.nodup.filter _, ?_, fun b hb hne a ha => ?_⟩
  · by_cases hall : ∀ b ∈ rows, p b → b ∈ selected
    · have hperm : (selected.filter p).Perm (rows.filter p) := by
        refine (List.perm_ext_iff_of_nodup (h.nodup.filter _) (hrows.filter _)).mpr fun a => ?_
        refine ⟨fun ha => hsub ha, fun ha => ?_⟩
        obtain ⟨hmem, hpa⟩ := List.mem_filter.mp ha
        exact List.mem_filter.mpr ⟨hall a hmem hpa, hpa⟩
      have hle : (selected.filter p).length ≤ selected.length := List.length_filter_le _ _
      have hlength := h.length
      rw [← hperm.length_eq]
      omega
    · push Not at hall
      obtain ⟨b, hb, hpb, hne⟩ := hall
      obtain ⟨hfilter, hlength⟩ := hrest b hb hne hpb
      have hle : (selected.filter p).length ≤ (rows.filter p).length :=
        (List.subperm_of_subset (h.nodup.filter _) hsub).length_le
      rw [hfilter] at hle ⊢
      omega
  · obtain ⟨hmem, hpb⟩ := List.mem_filter.mp hb
    exact h.rest b hmem (fun hsel => hne (List.mem_filter.mpr ⟨hsel, hpb⟩)) a
      (List.mem_filter.mp ha).1

end First

end Tables
