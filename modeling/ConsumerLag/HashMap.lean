import Mathlib.Data.List.Nodup

/-!
# `std::collections::HashMap` as the list of its entries

The register's loops iterate maps (`iter`, `iter_mut`, `into_iter`) and what they do can
depend on the order, so a map is the list of its entries in iteration order, with pairwise
distinct keys. Where Rust places a new key is unspecified; `insert` places it last.
A `HashSet<K>` is, as in Rust, a map to `()`.
-/
namespace ConsumerLag

structure HashMap (K V : Type) where
  toList : List (K × V)
  nodup : (toList.map Prod.fst).Nodup

abbrev HashSet (K : Type) := HashMap K Unit

/-- Two maps are the same value when they list the same entries in the same order. -/
instance {K V : Type} [DecidableEq K] [DecidableEq V] : DecidableEq (HashMap K V) := fun a b =>
  decidable_of_iff (a.toList = b.toList) (by cases a; cases b; simp)

/-- Two entry lists in step, key by key, name the same keys. -/
theorem HashMap.map_fst_of_forall₂ {K V W : Type} {R : V → W → Prop} {l : List (K × V)}
    {l' : List (K × W)} (h : List.Forall₂ (fun e e' => e'.1 = e.1 ∧ R e.2 e'.2) l l') :
    l'.map Prod.fst = l.map Prod.fst := by
  induction h with
  | nil => rfl
  | cons he _ ih => simp [he.1, ih]

namespace HashMap

variable {K V : Type} [DecidableEq K]

def keys (m : HashMap K V) : List K := m.toList.map Prod.fst

def empty : HashMap K V := ⟨[], List.nodup_nil⟩

def get? (m : HashMap K V) (k : K) : Option V := m.toList.lookup k

def contains (m : HashMap K V) (k : K) : Bool := (m.get? k).isSome

def isEmpty (m : HashMap K V) : Bool := m.toList.isEmpty

private theorem lookup_eq_none_iff_not_mem {l : List (K × V)} {k : K} :
    l.lookup k = none ↔ k ∉ l.map Prod.fst := by
  simp only [List.lookup_eq_none_iff, bne_iff_ne, ne_eq, List.mem_map]
  exact ⟨fun h ⟨p, hp, he⟩ => h p hp he.symm, fun h p hp he => h ⟨p, hp, he.symm⟩⟩

/-- A `get_mut(k)` whose value is then updated in place by `f`. -/
def modify (m : HashMap K V) (k : K) (f : V → V) : HashMap K V :=
  ⟨m.toList.map fun e => (e.1, if e.1 = k then f e.2 else e.2), by
    simpa [Function.comp_def] using m.nodup⟩

/-- `insert(k, v)`: a present key keeps its place, a new one goes last. -/
def insert (m : HashMap K V) (k : K) (v : V) : HashMap K V :=
  if h : m.contains k then m.modify k fun _ => v
  else ⟨m.toList ++ [(k, v)], by
    have hk : k ∉ m.toList.map Prod.fst := by
      simpa [contains, get?, lookup_eq_none_iff_not_mem] using h
    simpa [List.nodup_append, hk] using m.nodup⟩

/-- `entry(k).and_modify(f).or_insert(v)`. -/
def upsert (m : HashMap K V) (k : K) (f : V → V) (v : V) : HashMap K V :=
  if m.contains k then m.modify k f else m.insert k v

/-- `retain(p)`: the kept entries stay in order. -/
def retain (m : HashMap K V) (p : K → V → Bool) : HashMap K V :=
  ⟨m.toList.filter fun e => p e.1 e.2, ((List.filter_sublist _).map Prod.fst).nodup m.nodup⟩

/-- The keys of `m` as a set, in the same order. -/
def keySet (m : HashMap K V) : HashSet K :=
  ⟨m.toList.map fun e => (e.1, ()), by simpa [Function.comp_def] using m.nodup⟩

/-- `collect::<HashMap<_, _>>()`: the entries are inserted in order, so a later value wins. -/
def fromList (l : List (K × V)) : HashMap K V :=
  l.foldl (fun m e => m.insert e.1 e.2) empty

theorem get?_eq_some_iff {m : HashMap K V} {k : K} {v : V} :
    m.get? k = some v ↔ (k, v) ∈ m.toList := by
  obtain ⟨l, hl⟩ := m
  simp only [get?]
  induction l with
  | nil => simp
  | cons e l ih =>
    obtain ⟨k', v'⟩ := e
    simp only [List.map_cons, List.nodup_cons] at hl
    by_cases hk : k = k'
    · subst hk
      have hv : (k, v) ∈ l → False := fun h => hl.1 (List.mem_map.mpr ⟨_, h, rfl⟩)
      simp only [List.lookup_cons_self, Option.some.injEq, List.mem_cons, Prod.mk.injEq,
        true_and]
      exact ⟨fun h => .inl h.symm, fun h => h.elim Eq.symm (absurd · hv)⟩
    · simp [List.lookup_cons, beq_false_of_ne hk, hk, ih hl.2]

@[simp] theorem get?_empty (k : K) : (empty : HashMap K V).get? k = none := rfl

theorem contains_iff_mem_keys {m : HashMap K V} {k : K} : m.contains k ↔ k ∈ m.keys := by
  simp [contains, get?, keys, Option.isSome_iff_ne_none, lookup_eq_none_iff_not_mem]

theorem contains_iff_get? {m : HashMap K V} {k : K} : m.contains k ↔ ∃ v, m.get? k = some v :=
  Option.isSome_iff_exists

theorem isEmpty_eq_false_iff {m : HashMap K V} : m.isEmpty = false ↔ ∃ k, m.contains k := by
  simp [isEmpty, contains_iff_mem_keys, keys, List.eq_nil_iff_forall_not_mem]

@[simp] theorem get?_modify (m : HashMap K V) (k k' : K) (f : V → V) :
    (m.modify k f).get? k' = if k' = k then (m.get? k).map f else m.get? k' := by
  obtain ⟨l, hl⟩ := m
  simp only [modify, get?]
  clear hl
  induction l with
  | nil => simp
  | cons e l ih =>
    obtain ⟨a, b⟩ := e
    by_cases ha : k' = a
    · subst ha
      by_cases hk : k' = k <;> simp [hk]
    · by_cases hk : k' = k
      · subst hk
        simp [List.lookup_cons, beq_false_of_ne ha, ih]
      · simp [List.lookup_cons, beq_false_of_ne ha, ih, hk]

@[simp] theorem contains_modify (m : HashMap K V) (k k' : K) (f : V → V) :
    (m.modify k f).contains k' = m.contains k' := by
  simp only [contains, get?_modify]
  split <;> simp_all

@[simp] theorem get?_insert (m : HashMap K V) (k k' : K) (v : V) :
    (m.insert k v).get? k' = if k' = k then some v else m.get? k' := by
  unfold insert
  split
  · next h =>
    obtain ⟨w, hw⟩ := contains_iff_get?.mp h
    simp [hw]
  · next h =>
    have hn : m.get? k = none := by simpa [contains] using h
    by_cases hk : k' = k
    · subst hk
      simp [get?, List.lookup_append, show m.toList.lookup k' = none from hn]
    · simp [get?, List.lookup_append, List.lookup_cons, beq_false_of_ne hk, hk]

@[simp] theorem get?_upsert (m : HashMap K V) (k k' : K) (f : V → V) (v : V) :
    (m.upsert k f v).get? k' = if k' = k then some ((m.get? k).elim v f) else m.get? k' := by
  unfold upsert
  split
  · next h =>
    obtain ⟨w, hw⟩ := contains_iff_get?.mp h
    simp [hw]
  · next h =>
    have hn : m.get? k = none := by simpa [contains] using h
    simp [hn]

@[simp] theorem get?_retain (m : HashMap K V) (p : K → V → Bool) (k : K) :
    (m.retain p).get? k = (m.get? k).filter (p k) := by
  apply Option.ext
  intro v
  simp only [Option.mem_def, Option.filter_eq_some, get?_eq_some_iff]
  simp [retain]

theorem get?_fromList (l : List (K × V)) (k : K) :
    (fromList l).get? k = l.reverse.lookup k := by
  suffices h : ∀ m : HashMap K V,
      (l.foldl (fun m e => m.insert e.1 e.2) m).get? k = (l.reverse.lookup k).or (m.get? k) by
    simpa using h empty
  induction l with
  | nil => simp
  | cons e l ih =>
    intro m
    obtain ⟨a, b⟩ := e
    rw [List.foldl_cons, ih, List.reverse_cons, List.lookup_append, get?_insert, Option.or_assoc]
    by_cases hk : k = a
    · simp [hk]
    · simp [List.lookup_cons, beq_false_of_ne hk, hk]

theorem contains_fromList (l : List (K × V)) (k : K) :
    (fromList l).contains k ↔ ∃ v, (k, v) ∈ l := by
  simp only [contains, get?_fromList, List.lookup_isSome_iff, List.mem_reverse, beq_iff_eq]
  exact ⟨fun ⟨p, hp, he⟩ => ⟨p.2, he ▸ hp⟩, fun ⟨v, hv⟩ => ⟨_, hv, rfl⟩⟩

theorem mem_of_mem_fromList {l : List (K × V)} {k : K} {v : V}
    (h : (k, v) ∈ (fromList l).toList) : (k, v) ∈ l := by
  rw [← get?_eq_some_iff, get?_fromList, List.lookup_eq_some_iff] at h
  obtain ⟨l₁, l₂, he, -⟩ := h
  exact List.mem_reverse.mp (he ▸ List.mem_append_right _ (List.mem_cons_self _ _))

/-- With distinct keys, the last value of a key is its only one. -/
theorem get?_fromList_of_nodup {l : List (K × V)} (h : (l.map Prod.fst).Nodup) (k : K) :
    (fromList l).get? k = (⟨l, h⟩ : HashMap K V).get? k := by
  apply Option.ext
  intro v
  simp only [Option.mem_def, get?_eq_some_iff]
  exact ⟨mem_of_mem_fromList, fun hm => by
    rw [← get?_eq_some_iff, get?_fromList]
    have hr : (l.reverse.map Prod.fst).Nodup := by simpa [List.map_reverse] using h
    exact (get?_eq_some_iff (m := ⟨l.reverse, hr⟩)).mpr (List.mem_reverse.mpr hm)⟩

/-- Two entry lists in step, key by key, have lookups in step. -/
theorem rel_lookup_of_forall₂ {W : Type} {R : V → W → Prop} {l : List (K × V)}
    {l' : List (K × W)} (h : List.Forall₂ (fun e e' => e'.1 = e.1 ∧ R e.2 e'.2) l l') (k : K) :
    Option.Rel R (l.lookup k) (l'.lookup k) := by
  induction h with
  | nil => exact .none
  | @cons e e' l l' he _ ih =>
    obtain ⟨a, b⟩ := e
    obtain ⟨a', b'⟩ := e'
    obtain ⟨rfl, hr⟩ := he
    by_cases hk : k = a'
    · subst hk
      simpa using Option.Rel.some hr
    · simpa [List.lookup_cons, beq_false_of_ne hk] using ih

theorem lookup_reverse_toList (m : HashMap K V) (k : K) : m.toList.reverse.lookup k = m.get? k := by
  rw [← get?_fromList, get?_fromList_of_nodup m.nodup]

@[simp] theorem contains_keySet (m : HashMap K V) (k : K) : m.keySet.contains k = m.contains k := by
  rw [Bool.eq_iff_iff, contains_iff_mem_keys, contains_iff_mem_keys]
  simp [keys, keySet, Function.comp_def]

/-- The keys of a map built from a list are the keys the list names. -/
theorem mem_keys_fromList (l : List (K × V)) (k : K) :
    k ∈ (fromList l).toList.map Prod.fst ↔ k ∈ l.map Prod.fst :=
  contains_iff_mem_keys.symm.trans (by rw [contains_fromList]; simp)

/-- In a list whose values are all `v`, a key finds `v` exactly when the list names it. -/
theorem lookup_of_forall_snd {l : List (K × V)} {v : V} (hl : ∀ e ∈ l, e.2 = v) (k : K) :
    l.lookup k = if k ∈ l.map Prod.fst then some v else none := by
  induction l with
  | nil => simp
  | cons e l ih =>
    obtain ⟨a, b⟩ := e
    obtain rfl : b = v := hl _ (List.mem_cons_self _ _)
    by_cases hk : k = a
    · simp [hk]
    · rw [List.lookup_cons, beq_false_of_ne hk, ih fun e he => hl e (List.mem_cons_of_mem _ he)]
      by_cases hm : k ∈ l.map Prod.fst <;> simp [hk, hm]

/-- A key of lists collected into one map gets the value of the last list naming it. -/
theorem lookup_reverse_flatMap {β : Type} (ms : List β) (F : β → List (K × V)) (val : β → V)
    (hF : ∀ m, ∀ e ∈ F m, e.2 = val m) (k : K) :
    (ms.flatMap F).reverse.lookup k = (ms.reverse.find? fun m => k ∈ (F m).map Prod.fst).map val := by
  induction ms with
  | nil => rfl
  | cons m ms ih =>
    have hm := lookup_of_forall_snd (l := (F m).reverse)
      (fun e he => hF m e (List.mem_reverse.mp he)) k
    rw [List.flatMap_cons, List.reverse_append, List.lookup_append, ih, hm, List.reverse_cons,
      List.find?_append]
    cases ms.reverse.find? (fun m => k ∈ (F m).map Prod.fst) <;>
      by_cases hk : k ∈ (F m).map Prod.fst <;> simp [hk, List.map_reverse]

/-- A list mapped to entries looks a key up at its first element with that key. -/
theorem lookup_map_pair {α : Type} (l : List α) (key : α → K) (f : α → V) (k : K) :
    (l.map fun x => (key x, f x)).lookup k = (l.find? fun x => key x = k).map f := by
  induction l with
  | nil => rfl
  | cons x l ih =>
    by_cases hk : key x = k
    · simp [hk, List.lookup_cons]
    · simp [hk, List.lookup_cons, beq_false_of_ne (Ne.symm hk), ih]

/-- Inserting the elements of a list under their keys, a key finds the last element with it. -/
theorem get?_foldl_insert {α : Type} (l : List α) (key : α → K) (f : α → V) (k : K) :
    (l.foldl (fun m x => m.insert (key x) (f x)) empty).get? k =
      (l.reverse.find? fun x => key x = k).map f := by
  rw [← lookup_map_pair, List.map_reverse, ← get?_fromList, fromList, List.foldl_map]

theorem key_of_get?_foldl_insert {α : Type} {l : List α} {key : α → K} {f : α → V} {k : K}
    {v : V} (h : (l.foldl (fun m x => m.insert (key x) (f x)) empty).get? k = some v) :
    ∃ x ∈ l, key x = k ∧ f x = v := by
  rw [get?_foldl_insert, Option.map_eq_some'] at h
  obtain ⟨x, hx, rfl⟩ := h
  exact ⟨x, List.mem_reverse.mp (List.mem_of_find?_eq_some hx), by simpa using List.find?_some hx,
    rfl⟩

end HashMap

end ConsumerLag
