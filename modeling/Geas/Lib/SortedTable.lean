import Mathlib.Data.List.Perm.Basic

/-!
# Tables sorted by a key

A table kept as a list in strictly increasing key order under a comparator, with
the half-open binary search that either hits an entry or gives the position a new
entry belongs at.  The comparator is a lawful total order on the keys.
-/

namespace Geas.Lib.SortedTable

variable {α κ : Type} (key : α → κ) (cmp : κ → κ → Ordering)

/-- Keys strictly increase. -/
def Sorted (table : List α) : Prop :=
  table.Pairwise fun left right => cmp (key left) (key right) = .lt

/-- The search loop over the positions from `lo` up to `hi`, for as many rounds as
there is fuel: whether it hit, and where. -/
def search (table : List α) (wanted : κ) : Nat → Nat → Nat → Bool × Nat
  | 0, lo, _ => (false, lo)
  | fuel + 1, lo, hi =>
      if lo < hi then
        let mid := lo + (hi - lo) / 2
        match table[mid]? with
        | none => (false, lo)
        | some entry =>
            match cmp (key entry) wanted with
            | .eq => (true, mid)
            | .lt => search table wanted fuel (mid + 1) hi
            | .gt => search table wanted fuel lo mid
      else (false, lo)

/-- The search over a whole table, which needs no more rounds than entries. -/
def find (table : List α) (wanted : κ) : Bool × Nat :=
  search key cmp table wanted table.length 0 table.length

/-- Move the entries from a position on one up and put an entry there. -/
def insertAt (table : List α) (pos : Nat) (entry : α) : List α :=
  table.take pos ++ entry :: table.drop pos

/-- The result of a search: an entry with the key, or the position that splits the
table at the key. -/
structure Located (table : List α) (wanted : κ) (result : Bool × Nat) : Prop where
  hit : result.1 = true → ∃ entry, table[result.2]? = some entry ∧ key entry = wanted
  inside : result.2 ≤ table.length
  below : result.1 = false → ∀ i entry, i < result.2 → table[i]? = some entry →
    cmp (key entry) wanted = .lt
  above : result.1 = false → ∀ i entry, result.2 ≤ i → table[i]? = some entry →
    cmp (key entry) wanted = .gt

variable {key cmp} {table : List α} {wanted : κ}

theorem Sorted.lt (sorted : Sorted key cmp table) {i j : Nat} {left right : α} (order : i < j)
    (first : table[i]? = some left) (second : table[j]? = some right) :
    cmp (key left) (key right) = .lt := by
  obtain ⟨_, rfl⟩ := List.getElem?_eq_some_iff.mp first
  obtain ⟨_, rfl⟩ := List.getElem?_eq_some_iff.mp second
  exact List.pairwise_iff_getElem.mp sorted i j _ _ order

variable [Std.TransCmp cmp] [Std.LawfulEqCmp cmp]

theorem search_located (sorted : Sorted key cmp table) {fuel lo hi : Nat} (window : lo ≤ hi)
    (bound : hi ≤ table.length) (enough : hi - lo ≤ fuel)
    (below : ∀ i entry, i < lo → table[i]? = some entry → cmp (key entry) wanted = .lt)
    (above : ∀ i entry, hi ≤ i → table[i]? = some entry → cmp (key entry) wanted = .gt) :
    Located key cmp table wanted (search key cmp table wanted fuel lo hi) := by
  have miss : ∀ {lo hi : Nat}, lo = hi → hi ≤ table.length →
      (∀ i entry, i < lo → table[i]? = some entry → cmp (key entry) wanted = .lt) →
      (∀ i entry, hi ≤ i → table[i]? = some entry → cmp (key entry) wanted = .gt) →
      Located key cmp table wanted (false, lo) := by
    rintro lo _ rfl bound below above
    exact ⟨nofun, bound, fun _ => below, fun _ => above⟩
  induction fuel generalizing lo hi with
  | zero => exact miss (by omega) bound below above
  | succ fuel ih =>
      unfold search
      split
      · next active =>
        have middle : lo + (hi - lo) / 2 < table.length := by omega
        have present : table[lo + (hi - lo) / 2]? = some _ := List.getElem?_eq_getElem middle
        simp only [present]
        split
        · next same =>
          exact ⟨fun _ => ⟨_, present, Std.LawfulEqCmp.eq_of_compare same⟩, by omega, nofun, nofun⟩
        · next less =>
          refine ih (by omega) bound (by omega) ?_ above
          intro i entry before found
          rcases Nat.lt_or_ge i (lo + (hi - lo) / 2) with strictly | _
          · exact Std.TransCmp.lt_trans (sorted.lt strictly found present) less
          · obtain rfl : i = lo + (hi - lo) / 2 := by omega
            cases present.symm.trans found
            exact less
        · next greater =>
          refine ih (by omega) (by omega) (by omega) below ?_
          intro i entry after found
          rcases Nat.lt_or_ge (lo + (hi - lo) / 2) i with strictly | _
          · refine Std.OrientedCmp.gt_iff_lt.mpr ?_
            exact Std.TransCmp.lt_trans (Std.OrientedCmp.gt_iff_lt.mp greater)
              (sorted.lt strictly present found)
          · obtain rfl : i = lo + (hi - lo) / 2 := by omega
            cases present.symm.trans found
            exact greater
      · exact miss (by omega) bound below above

theorem find_located (sorted : Sorted key cmp table) (wanted : κ) :
    Located key cmp table wanted (find key cmp table wanted) := by
  refine search_located sorted (Nat.zero_le _) (Nat.le_refl _) (by omega) (by omega) ?_
  intro i entry after found
  rw [List.getElem?_eq_none after] at found
  cases found

/-- A search hits exactly the keys of the table. -/
theorem find_hit_iff (sorted : Sorted key cmp table) :
    (find key cmp table wanted).1 = true ↔ wanted ∈ table.map key := by
  have located := find_located sorted wanted
  constructor
  · intro hit
    obtain ⟨entry, found, same⟩ := located.hit hit
    exact List.mem_map.mpr ⟨entry, List.mem_of_getElem? found, same⟩
  · intro membership
    obtain ⟨entry, inside, rfl⟩ := List.mem_map.mp membership
    by_contra miss
    have miss : (find key cmp table (key entry)).1 = false := by simpa using miss
    obtain ⟨i, found⟩ := List.getElem?_of_mem inside
    have same : cmp (key entry) (key entry) = .eq := Std.ReflCmp.compare_self
    rcases Nat.lt_or_ge i (find key cmp table (key entry)).2 with before | after
    · exact absurd (same.symm.trans (located.below miss i entry before found)) (by decide)
    · exact absurd (same.symm.trans (located.above miss i entry after found)) (by decide)

/-- Inserting at the position of a miss keeps the order. -/
theorem sorted_insertAt (sorted : Sorted key cmp table) {entry : α}
    (miss : (find key cmp table (key entry)).1 = false) :
    Sorted key cmp (insertAt table (find key cmp table (key entry)).2 entry) := by
  have located := find_located sorted (key entry)
  have below : ∀ other ∈ table.take (find key cmp table (key entry)).2,
      cmp (key other) (key entry) = .lt := by
    intro other membership
    obtain ⟨i, found⟩ := List.getElem?_of_mem membership
    rw [List.getElem?_take] at found
    split at found
    · next before => exact located.below miss i other before found
    · cases found
  have above : ∀ other ∈ table.drop (find key cmp table (key entry)).2,
      cmp (key entry) (key other) = .lt := by
    intro other membership
    obtain ⟨i, found⟩ := List.getElem?_of_mem membership
    rw [List.getElem?_drop] at found
    exact Std.OrientedCmp.gt_iff_lt.mp (located.above miss _ other (by omega) found)
  refine List.pairwise_append.mpr ⟨sorted.sublist (List.take_sublist _ _),
    List.pairwise_cons.mpr ⟨above, sorted.sublist (List.drop_sublist _ _)⟩, ?_⟩
  intro left before right after
  rcases List.mem_cons.mp after with rfl | later
  · exact below left before
  · exact Std.TransCmp.lt_trans (below left before) (above right later)

theorem insertAt_perm (pos : Nat) (entry : α) : (insertAt table pos entry).Perm (entry :: table) := by
  rw [insertAt]
  exact List.perm_middle.trans (List.Perm.cons _ (by rw [List.take_append_drop]))

/-- A filter that drops the entry sees the table without it. -/
theorem filter_insertAt {keeps : α → Bool} {entry : α} (dropped : keeps entry = false) (pos : Nat) :
    (insertAt table pos entry).filter keeps = table.filter keeps := by
  rw [insertAt, List.filter_append, List.filter_cons_of_neg (by simp [dropped]),
    ← List.filter_append, List.take_append_drop]

end Geas.Lib.SortedTable
