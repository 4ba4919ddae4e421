import Mathlib.Order.Lattice
import Mathlib.Order.Defs.LinearOrder
import Mathlib.Data.List.Pairwise
import Mathlib.Data.List.Perm.Basic
import Mathlib.Data.List.Nodup

/-! Finite maps as lists of entries in strictly increasing key order. A map is built by
`set` and `erase` only, so the order is part of the type: a key has one entry, and two
maps that answer every `get?` alike list their entries in the same order. Selections keep
that order. -/

/-- A finite map, its entries sorted by key. -/
structure OrderedMap (K V : Type*) [LinearOrder K] where
  entries : List (K × V)
  sorted : entries.Pairwise (fun a b => a.1 < b.1)

namespace OrderedMap

variable {K V : Type*} [LinearOrder K]

/-! ### Sorted lists of entries -/

/-- Replace the entry of `k`, or insert it at its place. -/
def insertEntry (k : K) (v : V) : List (K × V) → List (K × V)
  | [] => [(k, v)]
  | e :: es =>
    if k < e.1 then (k, v) :: e :: es
    else if k = e.1 then (k, v) :: es
    else e :: insertEntry k v es

theorem mem_insertEntry {k : K} {v : V} {es : List (K × V)}
    (hs : es.Pairwise (fun a b => a.1 < b.1)) {e : K × V} :
    e ∈ insertEntry k v es ↔ e = (k, v) ∨ e ∈ es ∧ e.1 ≠ k := by
  induction es with
  | nil => simp [insertEntry]
  | cons d es ih =>
    obtain ⟨hd, hes⟩ := List.pairwise_cons.mp hs
    simp only [insertEntry]
    split_ifs with hlt heq
    · -- the new entry comes first, and every old key is larger
      have hne : ∀ e ∈ d :: es, e.1 ≠ k := by
        intro e he
        rcases List.mem_cons.mp he with rfl | he
        · exact ne_of_gt hlt
        · exact ne_of_gt (lt_trans hlt (hd e he))
      rw [List.mem_cons]
      exact or_congr_right ⟨fun he => ⟨he, hne e he⟩, And.left⟩
    · have hne : ∀ e ∈ es, e.1 ≠ k := fun e he => heq ▸ ne_of_gt (hd e he)
      simp only [List.mem_cons]
      constructor
      · rintro (rfl | he)
        · exact Or.inl rfl
        · exact Or.inr ⟨Or.inr he, hne e he⟩
      · rintro (rfl | ⟨rfl | he, hk⟩)
        · exact Or.inl rfl
        · exact absurd heq.symm hk
        · exact Or.inr he
    · simp only [List.mem_cons, ih hes]
      constructor
      · rintro (rfl | rfl | ⟨he, hk⟩)
        · exact Or.inr ⟨Or.inl rfl, fun h => heq h.symm⟩
        · exact Or.inl rfl
        · exact Or.inr ⟨Or.inr he, hk⟩
      · rintro (rfl | ⟨rfl | he, hk⟩)
        · exact Or.inr (Or.inl rfl)
        · exact Or.inl rfl
        · exact Or.inr (Or.inr ⟨he, hk⟩)

theorem pairwise_insertEntry {k : K} {v : V} {es : List (K × V)}
    (hs : es.Pairwise (fun a b => a.1 < b.1)) :
    (insertEntry k v es).Pairwise (fun a b => a.1 < b.1) := by
  induction es with
  | nil => simp [insertEntry]
  | cons d es ih =>
    obtain ⟨hd, hes⟩ := List.pairwise_cons.mp hs
    simp only [insertEntry]
    split_ifs with hlt heq
    · refine List.pairwise_cons.mpr ⟨fun e he => ?_, hs⟩
      rcases List.mem_cons.mp he with rfl | he
      · exact hlt
      · exact lt_trans hlt (hd e he)
    · exact List.pairwise_cons.mpr ⟨fun e he => heq ▸ hd e he, hes⟩
    · refine List.pairwise_cons.mpr ⟨fun e he => ?_, ih hes⟩
      rcases (mem_insertEntry hes).mp he with rfl | ⟨he, -⟩
      · exact lt_of_le_of_ne (not_lt.mp hlt) (Ne.symm heq)
      · exact hd e he

/-! ### The operations -/

def empty : OrderedMap K V := ⟨[], List.Pairwise.nil⟩

instance : EmptyCollection (OrderedMap K V) := ⟨empty⟩

def get? (m : OrderedMap K V) (k : K) : Option V := (m.entries.find? fun e => e.1 = k).map Prod.snd

def set (m : OrderedMap K V) (k : K) (v : V) : OrderedMap K V :=
  ⟨insertEntry k v m.entries, pairwise_insertEntry m.sorted⟩

def erase (m : OrderedMap K V) (k : K) : OrderedMap K V :=
  ⟨m.entries.filter fun e => e.1 ≠ k, m.sorted.filter _⟩

/-- The entries that satisfy `p`, in key order. -/
def select (m : OrderedMap K V) (p : K → V → Bool) : List (K × V) :=
  m.entries.filter fun e => p e.1 e.2

/-! ### One entry a key -/

theorem entry_unique (m : OrderedMap K V) {k : K} {v w : V} (hv : (k, v) ∈ m.entries)
    (hw : (k, w) ∈ m.entries) : v = w := by
  have h := m.sorted
  revert hv hw h
  generalize m.entries = es
  intro hv hw h
  induction es with
  | nil => simp at hv
  | cons e es ih =>
    obtain ⟨he, hes⟩ := List.pairwise_cons.mp h
    rcases List.mem_cons.mp hv with hv | hv <;> rcases List.mem_cons.mp hw with hw | hw
    · exact (Prod.ext_iff.mp (hv.trans hw.symm)).2
    · exact absurd (he _ hw) (by rw [← hv]; exact lt_irrefl _)
    · exact absurd (he _ hv) (by rw [← hw]; exact lt_irrefl _)
    · exact ih hv hw hes

theorem get?_eq_some_iff (m : OrderedMap K V) {k : K} {v : V} :
    m.get? k = some v ↔ (k, v) ∈ m.entries := by
  constructor
  · intro h
    obtain ⟨⟨k', v'⟩, hfind, rfl⟩ := Option.map_eq_some_iff.mp h
    have hk : k' = k := by simpa using List.find?_some hfind
    exact hk ▸ List.mem_of_find?_eq_some hfind
  · intro h
    have hsome : (m.entries.find? fun e => decide (e.1 = k)).isSome := by
      rw [List.find?_isSome]
      exact ⟨(k, v), h, by simp⟩
    obtain ⟨⟨k', v'⟩, hfind⟩ := Option.isSome_iff_exists.mp hsome
    have hk : k' = k := by simpa using List.find?_some hfind
    subst hk
    have hv : v' = v := m.entry_unique (List.mem_of_find?_eq_some hfind) h
    simp [get?, hfind, hv]

/-- Maps with the same values at every key are the same. -/
theorem ext_get? {m m' : OrderedMap K V} (h : ∀ k, m.get? k = m'.get? k) : m = m' := by
  have hnodup : ∀ n : OrderedMap K V, n.entries.Nodup := fun n =>
    n.sorted.imp fun hlt he => ne_of_lt hlt (congrArg Prod.fst he)
  have hperm : m.entries.Perm m'.entries :=
    (List.perm_ext_iff_of_nodup (hnodup m) (hnodup m')).mpr fun e => by
      rw [← m.get?_eq_some_iff, ← m'.get?_eq_some_iff, h]
  have hentries : m.entries = m'.entries :=
    hperm.eq_of_pairwise (fun a b _ _ hab hba => absurd (hab.trans hba) (lt_irrefl _))
      m.sorted m'.sorted
  cases m
  cases m'
  cases hentries
  rfl

theorem get?_eq_none_iff (m : OrderedMap K V) {k : K} :
    m.get? k = none ↔ ∀ v, (k, v) ∉ m.entries := by
  rw [Option.eq_none_iff_forall_ne_some]
  exact forall_congr' fun v => not_congr m.get?_eq_some_iff

@[simp] theorem get?_empty (k : K) : (∅ : OrderedMap K V).get? k = none := rfl

theorem get?_set (m : OrderedMap K V) (k : K) (v : V) (j : K) :
    (m.set k v).get? j = if j = k then some v else m.get? j := by
  ext w
  rw [get?_eq_some_iff, set, mem_insertEntry m.sorted]
  split_ifs with h
  · subst h; simp [eq_comm]
  · simp [h, m.get?_eq_some_iff]

@[simp] theorem get?_set_self (m : OrderedMap K V) (k : K) (v : V) :
    (m.set k v).get? k = some v := by simp [get?_set]

theorem get?_set_of_ne (m : OrderedMap K V) {k j : K} (v : V) (h : j ≠ k) :
    (m.set k v).get? j = m.get? j := by simp [get?_set, h]

theorem get?_erase (m : OrderedMap K V) (k j : K) :
    (m.erase k).get? j = if j = k then none else m.get? j := by
  ext w
  rw [get?_eq_some_iff]
  split_ifs with h
  · simp [erase, h]
  · simp [erase, h, m.get?_eq_some_iff]

@[simp] theorem get?_erase_self (m : OrderedMap K V) (k : K) : (m.erase k).get? k = none := by
  simp [get?_erase]

/-! ### The entries after an operation -/

theorem perm_insertEntry {k : K} {v : V} {es : List (K × V)}
    (hs : es.Pairwise (fun a b => a.1 < b.1)) :
    (insertEntry k v es).Perm ((k, v) :: es.filter fun e => e.1 ≠ k) := by
  induction es with
  | nil => exact List.Perm.refl _
  | cons e es ih =>
    obtain ⟨he, hes⟩ := List.pairwise_cons.mp hs
    have hlater : k ≤ e.1 → es.filter (fun e => e.1 ≠ k) = es := fun hle =>
      List.filter_eq_self.mpr fun d hd => by simpa using ne_of_gt (lt_of_le_of_lt hle (he d hd))
    simp only [insertEntry]
    split_ifs with hlt heq
    · rw [List.filter_cons_of_pos (by simpa using ne_of_gt hlt), hlater (le_of_lt hlt)]
    · rw [List.filter_cons_of_neg (by simp [heq]), hlater (le_of_eq heq)]
    · rw [List.filter_cons_of_pos (by simpa using Ne.symm heq)]
      exact ((ih hes).cons e).trans (List.Perm.swap (k, v) e _)

/-- Setting a key replaces its entry or adds one. -/
theorem perm_set (m : OrderedMap K V) (k : K) (v : V) :
    (m.set k v).entries.Perm ((k, v) :: (m.erase k).entries) :=
  perm_insertEntry m.sorted

theorem erase_entries_of_none (m : OrderedMap K V) {k : K} (hk : m.get? k = none) :
    (m.erase k).entries = m.entries := by
  refine List.filter_eq_self.mpr fun e he => ?_
  have hne : e.1 ≠ k := by
    rintro rfl
    exact m.get?_eq_none_iff.mp hk e.2 he
  simpa using hne

/-- Erasing a key removes its one entry. -/
theorem perm_erase (m : OrderedMap K V) {k : K} {v : V} (hk : m.get? k = some v) :
    m.entries.Perm ((k, v) :: (m.erase k).entries) := by
  have hmem := m.get?_eq_some_iff.mp hk
  have hs := m.sorted
  simp only [erase]
  revert hmem hs
  generalize m.entries = es
  intro hmem hs
  induction es with
  | nil => cases hmem
  | cons e es ih =>
    obtain ⟨he, hes⟩ := List.pairwise_cons.mp hs
    rcases List.mem_cons.mp hmem with rfl | hmem
    · -- no later entry has the key of the first one
      have hrest : es.filter (fun e => e.1 ≠ k) = es :=
        List.filter_eq_self.mpr fun d hd => by simpa using ne_of_gt (he d hd)
      rw [List.filter_cons_of_neg (by simp), hrest]
    · have hne : e.1 ≠ k := ne_of_lt (he _ hmem)
      rw [List.filter_cons_of_pos (by simpa using hne)]
      exact ((ih hmem hes).cons e).trans (List.Perm.swap (k, v) e _)

/-! ### Selections -/

theorem mem_select (m : OrderedMap K V) {p : K → V → Bool} {k : K} {v : V} :
    (k, v) ∈ m.select p ↔ m.get? k = some v ∧ p k v := by
  simp [select, m.get?_eq_some_iff]

theorem select_sorted (m : OrderedMap K V) (p : K → V → Bool) :
    (m.select p).Pairwise (fun a b => a.1 < b.1) := m.sorted.filter _

/-- A key is at one index of a selection. -/
theorem select_index (m : OrderedMap K V) {p : K → V → Bool} {i j : ℕ} {d e : K × V}
    (hi : (m.select p)[i]? = some d) (hj : (m.select p)[j]? = some e) (hk : d.1 = e.1) : i = j := by
  obtain ⟨hi', rfl⟩ := List.getElem?_eq_some_iff.mp hi
  obtain ⟨hj', rfl⟩ := List.getElem?_eq_some_iff.mp hj
  have hlt := List.pairwise_iff_getElem.mp (m.select_sorted p)
  rcases Nat.lt_trichotomy i j with h | h | h
  · exact absurd hk (ne_of_lt (hlt i j hi' hj' h))
  · exact h
  · exact absurd hk (ne_of_gt (hlt j i hj' hi' h))

/-- A selection has one entry at most exactly if it takes one key at most. -/
theorem length_select_le_one (m : OrderedMap K V) {p : K → V → Bool} :
    (m.select p).length ≤ 1 ↔
      ∀ j k v w, m.get? j = some v → p j v → m.get? k = some w → p k w → j = k := by
  constructor
  · intro hl j k v w hj hv hk hw
    obtain ⟨i, hi⟩ := List.mem_iff_getElem?.mp (m.mem_select.mpr ⟨hj, hv⟩)
    obtain ⟨i', hi'⟩ := List.mem_iff_getElem?.mp (m.mem_select.mpr ⟨hk, hw⟩)
    have hlt := (List.getElem?_eq_some_iff.mp hi).1
    have hlt' := (List.getElem?_eq_some_iff.mp hi').1
    have heq : i = i' := by omega
    subst heq
    exact congrArg Prod.fst (Option.some.inj (hi.symm.trans hi'))
  · intro hone
    match hl : m.select p with
    | [] => exact Nat.zero_le 1
    | [_] => exact Nat.le_refl 1
    | (j, v) :: (k, w) :: _ =>
      -- the first two keys of a sorted list differ
      obtain ⟨hj, hv⟩ := m.mem_select.mp (hl ▸ List.mem_cons_self : (j, v) ∈ m.select p)
      obtain ⟨hk, hw⟩ := m.mem_select.mp
        (hl ▸ List.mem_cons_of_mem _ List.mem_cons_self : (k, w) ∈ m.select p)
      have hlt := (List.pairwise_cons.mp (hl ▸ m.select_sorted p)).1 (k, w) List.mem_cons_self
      exact absurd (hone j k v w hj hv hk hw) (ne_of_lt hlt)

/-- Selecting by key finds the one entry of that key. -/
theorem select_of_key (m : OrderedMap K V) {p : K → V → Bool} {k : K}
    (hp : ∀ j v, m.get? j = some v → (p j v = true ↔ j = k)) :
    (m.select p).map Prod.snd = (m.get? k).toList := by
  have hsel : m.select p = m.entries.filter fun e => e.1 = k := by
    refine List.filter_congr fun e he => ?_
    rw [Bool.eq_iff_iff, hp e.1 e.2 (m.get?_eq_some_iff.mpr he), decide_eq_true_eq]
  rw [hsel]
  cases hk : m.get? k with
  | none =>
    rw [List.filter_eq_nil_iff.mpr fun e he => ?_]
    · rfl
    · rintro h
      rw [decide_eq_true_eq] at h
      exact m.get?_eq_none_iff.mp hk e.2 (h ▸ he)
  | some v =>
    have hrest : (m.erase k).entries.filter (fun e => e.1 = k) = [] :=
      List.filter_eq_nil_iff.mpr fun e he => by simpa using (List.mem_filter.mp he).2
    have hperm := (m.perm_erase hk).filter fun e => decide (e.1 = k)
    rw [List.filter_cons_of_pos (by simp), hrest] at hperm
    rw [List.perm_singleton.mp hperm]
    rfl

/-! ### Restrictions and overlays -/

/-- The entries whose keys satisfy `p`. -/
def restrict (m : OrderedMap K V) (p : K → Bool) : OrderedMap K V :=
  ⟨m.select fun k _ => p k, m.select_sorted _⟩

/-- The map with the entries of a list set over it, one after the other. -/
def setAll (m : OrderedMap K V) (es : List (K × V)) : OrderedMap K V :=
  es.foldl (fun m e => m.set e.1 e.2) m

theorem get?_restrict (m : OrderedMap K V) (p : K → Bool) {k : K} {v : V} :
    (m.restrict p).get? k = some v ↔ m.get? k = some v ∧ p k := by
  rw [get?_eq_some_iff]
  exact m.mem_select (p := fun k _ => p k)

/-- Entries that agree with one another and with the map are added to it. -/
theorem get?_setAll {m : OrderedMap K V} {es : List (K × V)}
    (hm : ∀ e ∈ es, ∀ v, m.get? e.1 = some v → v = e.2)
    (hes : ∀ d ∈ es, ∀ e ∈ es, d.1 = e.1 → d.2 = e.2) {k : K} {v : V} :
    (m.setAll es).get? k = some v ↔ m.get? k = some v ∨ (k, v) ∈ es := by
  induction es generalizing m with
  | nil => simp [setAll]
  | cons e es ih =>
    have hset : ∀ d ∈ es, ∀ w, (m.set e.1 e.2).get? d.1 = some w → w = d.2 := by
      intro d hd w hw
      rw [get?_set] at hw
      split_ifs at hw with hk
      · cases hw
        exact (hes d (List.mem_cons_of_mem _ hd) e List.mem_cons_self hk).symm
      · exact hm d (List.mem_cons_of_mem _ hd) w hw
    have hrest : ∀ d ∈ es, ∀ e' ∈ es, d.1 = e'.1 → d.2 = e'.2 := fun d hd e' he' =>
      hes d (List.mem_cons_of_mem _ hd) e' (List.mem_cons_of_mem _ he')
    rw [show m.setAll (e :: es) = (m.set e.1 e.2).setAll es from rfl, ih hset hrest, get?_set,
      List.mem_cons]
    by_cases hk : k = e.1
    · subst hk
      rw [if_pos rfl]
      constructor
      · rintro (hv | hv)
        · exact Or.inr (Or.inl (by rw [← Option.some.inj hv]))
        · exact Or.inr (Or.inr hv)
      · rintro (hv | hv | hv)
        · exact Or.inl (by rw [hm e List.mem_cons_self v hv])
        · exact Or.inl (by rw [← hv])
        · exact Or.inr hv
    · rw [if_neg hk]
      have hne : (k, v) ≠ e := fun he => hk (by rw [← he])
      simp [hne]

/-- Values that are stored once each are listed once each. -/
theorem nodup_values {m : OrderedMap K V}
    (h : ∀ j k v, m.get? j = some v → m.get? k = some v → j = k) :
    (m.entries.map Prod.snd).Nodup := by
  have hentries : m.entries.Nodup := m.sorted.imp fun {d e} hlt he => ne_of_lt hlt (congrArg _ he)
  refine List.Nodup.map_on ?_ hentries
  rintro ⟨j, v⟩ hj ⟨k, w⟩ hk (rfl : v = w)
  rw [h j k v (m.get?_eq_some_iff.mpr hj) (m.get?_eq_some_iff.mpr hk)]

/-! ### A second key -/

/-- `f` is a second key of the values that have one: no two entries share it. -/
def Distinct {P : Type*} (m : OrderedMap K V) (f : V → Option P) : Prop :=
  ∀ j k v w p, m.get? j = some v → m.get? k = some w → f v = some p → f w = some p → j = k

/-- A new entry keeps the second key unique exactly if no entry has it already. -/
theorem Distinct.set_iff {P : Type*} {m : OrderedMap K V} {f : V → Option P} (h : m.Distinct f)
    {k : K} (hk : m.get? k = none) (v : V) :
    (m.set k v).Distinct f ↔ ∀ p, f v = some p → ∀ j w, m.get? j = some w → f w ≠ some p := by
  constructor
  · intro h' p hv j w hj hw
    have hne : j ≠ k := by
      rintro rfl
      rw [hk] at hj
      cases hj
    exact hne (h' j k w v p (by rw [get?_set_of_ne m v hne, hj]) (get?_set_self m k v) hw hv)
  · intro hnew j j' w w' p hj hj' hw hw'
    rw [get?_set] at hj hj'
    split_ifs at hj with hjk <;> split_ifs at hj' with hjk'
    · rw [hjk, hjk']
    · cases hj
      exact absurd hw' (hnew p hw j' w' hj')
    · cases hj'
      exact absurd hw (hnew p hw' j w hj)
    · exact h j j' w w' p hj hj' hw hw'

end OrderedMap
