import Mathlib.Data.List.Induction
import Mathlib.Tactic.Cases

/-! # Ordered maps

A map as the list of its entries in the order of a comparison that may take different keys for
the same. An assignment to a key that is there keeps the key and replaces the value, so the map
after some assignments has for every key the first spelling and the last value.
-/
namespace Flz.Lib.OrderedMap
variable {κ ν : Type} (cmp : κ → κ → Ordering)

/-- `m[key] = val`. -/
def set (key : κ) (val : ν) : List (κ × ν) → List (κ × ν)
  | [] => [(key, val)]
  | (k, v) :: m =>
    match cmp key k with
    | .lt => (key, val) :: (k, v) :: m
    | .eq => (k, val) :: m
    | .gt => (k, v) :: set key val m

/-- The entry for a key. -/
def entry (key : κ) (m : List (κ × ν)) : Option (κ × ν) := m.find? (fun e => cmp key e.1 == .eq)

/-- `m.insert({key, val})`: an entry that is there stays as it is. -/
def insert (key : κ) (val : ν) (m : List (κ × ν)) : List (κ × ν) :=
  if (entry cmp key m).isSome then m else set cmp key val m

/-- The map after some assignments. -/
def ofAssignments (fs : List (κ × ν)) : List (κ × ν) := fs.foldl (fun m e => set cmp e.1 e.2 m) []

/-- The first spelling of a key. -/
def firstKey (key : κ) (fs : List (κ × ν)) : Option κ :=
  (fs.find? (fun e => cmp key e.1 == .eq)).map Prod.fst

/-- The last value for a key. -/
def lastVal (key : κ) (fs : List (κ × ν)) : Option ν :=
  (fs.reverse.find? (fun e => cmp key e.1 == .eq)).map Prod.snd

def Sorted (m : List (κ × ν)) : Prop := m.Pairwise (fun e f => cmp e.1 f.1 = .lt)

variable {cmp}

theorem entry_mem {q : κ} {e : κ × ν} {m : List (κ × ν)} (h : entry cmp q m = some e) :
    e ∈ m ∧ cmp q e.1 = .eq := by
  rw [entry] at h
  have hq := List.find?_some h
  exact ⟨List.mem_of_find?_eq_some h, beq_iff_eq.mp hq⟩

theorem entry_cons_of_eq {q : κ} {e : κ × ν} (h : cmp q e.1 = .eq) (m : List (κ × ν)) :
    entry cmp q (e :: m) = some e := List.find?_cons_of_pos (beq_iff_eq.mpr h)

theorem entry_cons_of_ne {q : κ} {e : κ × ν} (h : cmp q e.1 ≠ .eq) (m : List (κ × ν)) :
    entry cmp q (e :: m) = entry cmp q m :=
  List.find?_cons_of_neg (fun heq => h (beq_iff_eq.mp heq))

/-- Before its place a key has no entry. -/
theorem entry_of_lt {q : κ} {m : List (κ × ν)} (h : ∀ e ∈ m, cmp q e.1 = .lt) :
    entry cmp q m = none := by
  refine List.find?_eq_none.mpr fun e he => ?_
  rw [h e he]
  decide

theorem mem_set {key : κ} {val : ν} {m : List (κ × ν)} {e : κ × ν} (he : e ∈ set cmp key val m) :
    e.1 = key ∨ ∃ f ∈ m, f.1 = e.1 := by
  induction m with
  | nil => exact Or.inl (congrArg Prod.fst (List.mem_singleton.mp he))
  | cons f m ih =>
    rw [set] at he
    split at he
    · rcases List.mem_cons.mp he with rfl | he
      · exact Or.inl rfl
      · exact Or.inr ⟨e, he, rfl⟩
    · rcases List.mem_cons.mp he with rfl | he
      · exact Or.inr ⟨f, List.mem_cons_self, rfl⟩
      · exact Or.inr ⟨e, List.mem_cons_of_mem f he, rfl⟩
    · rcases List.mem_cons.mp he with rfl | he
      · exact Or.inr ⟨_, List.mem_cons_self, rfl⟩
      · exact (ih he).imp id (fun ⟨g, hg, heq⟩ => ⟨g, List.mem_cons_of_mem f hg, heq⟩)

theorem entry_map (f : ν → ν) (q : κ) (m : List (κ × ν)) :
    entry cmp q (m.map fun e => (e.1, f e.2)) = (entry cmp q m).map fun e => (e.1, f e.2) := by
  simp only [entry, List.find?_map]
  rfl

/-- The values may change where they are. -/
theorem Sorted.map {m : List (κ × ν)} (hm : Sorted cmp m) (f : ν → ν) :
    Sorted cmp (m.map fun e => (e.1, f e.2)) := List.pairwise_map.mpr hm

variable [Std.TransCmp cmp]

theorem Sorted.set {m : List (κ × ν)} (hm : Sorted cmp m) (key : κ) (val : ν) :
    Sorted cmp (set cmp key val m) := by
  induction m with
  | nil => exact List.pairwise_singleton _ _
  | cons e m ih =>
    obtain ⟨hhead, htail⟩ := List.pairwise_cons.mp hm
    rw [OrderedMap.set]
    cases hcmp : cmp key e.1 with
    | lt =>
      refine List.pairwise_cons.mpr ⟨fun f hf => ?_, hm⟩
      rcases List.mem_cons.mp hf with rfl | hf
      · exact hcmp
      · exact Std.TransCmp.lt_trans hcmp (hhead f hf)
    | eq => exact List.pairwise_cons.mpr ⟨hhead, htail⟩
    | gt =>
      refine List.pairwise_cons.mpr ⟨fun f hf => ?_, ih htail⟩
      rcases mem_set hf with hkey | ⟨g, hg, hkey⟩
      · rw [hkey]
        exact Std.OrientedCmp.lt_of_gt hcmp
      · rw [← hkey]
        exact hhead g hg

theorem entry_set {m : List (κ × ν)} (hm : Sorted cmp m) (q key : κ) (val : ν) :
    entry cmp q (set cmp key val m) =
      if cmp q key = .eq then some (((entry cmp q m).map Prod.fst).getD key, val)
      else entry cmp q m := by
  induction m with
  | nil =>
    rw [set]
    by_cases hq : cmp q key = .eq
    · rw [if_pos hq, entry_cons_of_eq hq]
      rfl
    · rw [if_neg hq, entry_cons_of_ne hq]
  | cons e m ih =>
    obtain ⟨hhead, htail⟩ := List.pairwise_cons.mp hm
    rw [set]
    cases hcmp : cmp key e.1 with
    | lt =>
      dsimp only
      by_cases hq : cmp q key = .eq
      · have hnone : entry cmp q (e :: m) = none := by
          refine entry_of_lt fun f hf => ?_
          rw [Std.TransCmp.congr_left hq]
          rcases List.mem_cons.mp hf with rfl | hf
          · exact hcmp
          · exact Std.TransCmp.lt_trans hcmp (hhead f hf)
        rw [hnone, if_pos hq, entry_cons_of_eq hq]
        rfl
      · rw [if_neg hq, entry_cons_of_ne hq]
    | eq =>
      dsimp only
      have hqe : cmp q key = cmp q e.1 := Std.TransCmp.congr_right hcmp
      by_cases hq : cmp q key = .eq
      · have hq' := hqe.symm.trans hq
        have hnew : entry cmp q ((e.1, val) :: m) = some (e.1, val) :=
          @entry_cons_of_eq _ _ cmp q (e.1, val) hq' m
        rw [if_pos hq, hnew, entry_cons_of_eq hq']
        rfl
      · have hq' : cmp q e.1 ≠ .eq := fun h => hq (hqe.trans h)
        have hnew : entry cmp q ((e.1, val) :: m) = entry cmp q m :=
          @entry_cons_of_ne _ _ cmp q (e.1, val) hq' m
        rw [if_neg hq, hnew, entry_cons_of_ne hq']
    | gt =>
      dsimp only
      by_cases hqe : cmp q e.1 = .eq
      · have hq : ¬ cmp q key = .eq := by
          intro h
          rw [← Std.TransCmp.congr_left h, hqe] at hcmp
          cases hcmp
        rw [if_neg hq, entry_cons_of_eq hqe, entry_cons_of_eq hqe]
      · rw [entry_cons_of_ne hqe, entry_cons_of_ne hqe]
        exact ih htail

/-- An assignment is made at one place, and leaves the rest. -/
theorem set_split {m : List (κ × ν)} (hm : Sorted cmp m) (key : κ) (val : ν) :
    ∃ before after, m = before ++ (entry cmp key m).toList ++ after ∧
      set cmp key val m = before ++ (((entry cmp key m).map Prod.fst).getD key, val) :: after := by
  induction m with
  | nil => exact ⟨[], [], rfl, rfl⟩
  | cons e m ih =>
    obtain ⟨hhead, htail⟩ := List.pairwise_cons.mp hm
    cases hcmp : cmp key e.1 with
    | lt =>
      have hnone : entry cmp key (e :: m) = none := by
        refine entry_of_lt fun f hf => ?_
        rcases List.mem_cons.mp hf with rfl | hf
        · exact hcmp
        · exact Std.TransCmp.lt_trans hcmp (hhead f hf)
      exact ⟨[], e :: m, by rw [hnone]; rfl, by rw [hnone, set, hcmp]; rfl⟩
    | eq => exact ⟨[], m, by rw [entry_cons_of_eq hcmp]; rfl, by rw [entry_cons_of_eq hcmp, set, hcmp]; rfl⟩
    | gt =>
      have hentry : entry cmp key (e :: m) = entry cmp key m :=
        entry_cons_of_ne (by rw [hcmp]; decide) m
      obtain ⟨before, after, hm', hset⟩ := ih htail
      refine ⟨e :: before, after, ?_, ?_⟩
      · rw [hentry]
        exact congrArg (e :: ·) hm'
      · rw [hentry, set, hcmp]
        exact congrArg (e :: ·) hset

theorem entry_self {m : List (κ × ν)} (hm : Sorted cmp m) {e : κ × ν} (he : e ∈ m) :
    entry cmp e.1 m = some e := by
  have hrefl : cmp e.1 e.1 = .eq := Std.ReflCmp.compare_self
  induction m with
  | nil => cases he
  | cons f m ih =>
    obtain ⟨hhead, htail⟩ := List.pairwise_cons.mp hm
    rcases List.mem_cons.mp he with rfl | he
    · exact entry_cons_of_eq hrefl m
    · have hgt : cmp e.1 f.1 = .gt := Std.OrientedCmp.gt_of_lt (hhead e he)
      rw [entry_cons_of_ne (by rw [hgt]; decide)]
      exact ih htail he

/-- A map is given by its entries. -/
theorem ext {m m' : List (κ × ν)} (hm : Sorted cmp m) (hm' : Sorted cmp m')
    (h : ∀ q, entry cmp q m = entry cmp q m') : m = m' := by
  induction m generalizing m' with
  | nil =>
    cases m' with
    | nil => rfl
    | cons e' m' =>
      have hself := entry_self hm' List.mem_cons_self
      rw [← h] at hself
      cases hself
  | cons e m ih =>
    obtain ⟨hhead, htail⟩ := List.pairwise_cons.mp hm
    cases m' with
    | nil =>
      have hself := entry_self hm List.mem_cons_self
      rw [h] at hself
      cases hself
    | cons e' m' =>
      obtain ⟨hhead', htail'⟩ := List.pairwise_cons.mp hm'
      have he : e ∈ e' :: m' := (entry_mem ((h e.1).symm.trans (entry_self hm List.mem_cons_self))).1
      have he' : e' ∈ e :: m := (entry_mem ((h e'.1).trans (entry_self hm' List.mem_cons_self))).1
      have heq : e = e' := by
        rcases List.mem_cons.mp he with heq | he
        · exact heq
        · rcases List.mem_cons.mp he' with heq | he'
          · exact heq.symm
          · have hlt := Std.TransCmp.lt_trans (hhead e' he') (hhead' e he)
            have hrefl : cmp e.1 e.1 = .eq := Std.ReflCmp.compare_self
            rw [hrefl] at hlt
            cases hlt
      subst heq
      refine congrArg (e :: ·) (ih htail htail' fun q => ?_)
      by_cases hq : cmp q e.1 = .eq
      · rw [entry_of_lt (fun f hf => (Std.TransCmp.congr_left hq).trans (hhead f hf)),
          entry_of_lt (fun f hf => (Std.TransCmp.congr_left hq).trans (hhead' f hf))]
      · have hq' := h q
        rw [entry_cons_of_ne hq, entry_cons_of_ne hq] at hq'
        exact hq'

omit [Std.TransCmp cmp] in
theorem ofAssignments_append (fs : List (κ × ν)) (f : κ × ν) :
    ofAssignments cmp (fs ++ [f]) = set cmp f.1 f.2 (ofAssignments cmp fs) := List.foldl_append

theorem sorted_ofAssignments (fs : List (κ × ν)) : Sorted cmp (ofAssignments cmp fs) := by
  induction fs using List.reverseRecOn with
  | nil => exact List.Pairwise.nil
  | append_singleton fs f ih =>
    rw [ofAssignments_append]
    exact ih.set f.1 f.2

/-- The entries of the map after some assignments. -/
theorem entry_ofAssignments (q : κ) (fs : List (κ × ν)) :
    entry cmp q (ofAssignments cmp fs) =
      (firstKey cmp q fs).bind (fun k => (lastVal cmp q fs).map (Prod.mk k)) := by
  induction fs using List.reverseRecOn with
  | nil => rfl
  | append_singleton fs f ih =>
    rw [ofAssignments_append, entry_set (sorted_ofAssignments fs), ih, firstKey, firstKey, lastVal,
      lastVal, List.find?_append, List.reverse_append, List.reverse_singleton, List.singleton_append]
    by_cases hq : cmp q f.1 = .eq
    · have hsome : (fs.reverse.find? (fun e => cmp q e.1 == .eq)).isSome =
          (fs.find? (fun e => cmp q e.1 == .eq)).isSome := by
        rw [Bool.eq_iff_iff, List.find?_isSome, List.find?_isSome]
        simp only [List.mem_reverse]
      rw [if_pos hq, List.find?_cons, List.find?_cons, hq]
      cases hfirst : fs.find? (fun e => cmp q e.1 == .eq) with
      | none => rfl
      | some e =>
        rw [hfirst] at hsome
        obtain ⟨e', he'⟩ := Option.isSome_iff_exists.mp hsome
        rw [he']
        rfl
    · rw [if_neg hq, List.find?_cons_of_neg (by simpa using hq),
        List.find?_cons_of_neg (by simpa using hq), List.find?_nil, Option.or_none]

omit [Std.TransCmp cmp] in
theorem firstKey_isSome (q : κ) (fs : List (κ × ν)) :
    (firstKey cmp q fs).isSome = (lastVal cmp q fs).isSome := by
  rw [firstKey, lastVal, Option.isSome_map, Option.isSome_map, Bool.eq_iff_iff, List.find?_isSome,
    List.find?_isSome]
  simp only [List.mem_reverse]

/-- The map keeps the last value. -/
theorem val_ofAssignments (q : κ) (fs : List (κ × ν)) :
    (entry cmp q (ofAssignments cmp fs)).map Prod.snd = lastVal cmp q fs := by
  have hsome : (firstKey cmp q fs).isSome = (lastVal cmp q fs).isSome := firstKey_isSome q fs
  rw [entry_ofAssignments]
  cases hkey : firstKey cmp q fs with
  | none =>
    rw [hkey] at hsome
    exact (Option.isSome_eq_false_iff.mp hsome.symm |> Option.isNone_iff_eq_none.mp).symm
  | some k => simp [Function.comp_def]

omit [Std.TransCmp cmp] in
theorem lastVal_mem {q : κ} {fs : List (κ × ν)} {v : ν} (h : lastVal cmp q fs = some v) :
    ∃ e ∈ fs, cmp q e.1 = .eq ∧ e.2 = v := by
  obtain ⟨e, he, rfl⟩ := Option.map_eq_some_iff.mp h
  have hkey : (cmp q e.1 == .eq) = true := List.find?_some (p := fun e : κ × ν => cmp q e.1 == .eq) he
  exact ⟨e, List.mem_reverse.mp (List.mem_of_find?_eq_some he), beq_iff_eq.mp hkey, rfl⟩

omit [Std.TransCmp cmp] in
theorem lastVal_last {q : κ} {f : κ × ν} (h : cmp q f.1 = .eq) (fs : List (κ × ν)) :
    lastVal cmp q (fs ++ [f]) = some f.2 := by
  rw [lastVal, List.reverse_append, List.reverse_singleton, List.singleton_append,
    List.find?_cons_of_pos (by rw [h]; rfl)]
  rfl

/-- Two lists of assignments give the same map when every key has the same first spelling and
the same last value. -/
theorem ofAssignments_eq_iff {fs gs : List (κ × ν)} :
    ofAssignments cmp fs = ofAssignments cmp gs ↔
      ∀ q, firstKey cmp q fs = firstKey cmp q gs ∧ lastVal cmp q fs = lastVal cmp q gs := by
  constructor
  · intro h q
    have hentry := (entry_ofAssignments q fs).symm.trans
      ((congrArg (entry cmp q) h).trans (entry_ofAssignments q gs))
    have hf := @firstKey_isSome _ _ cmp q fs
    have hg := @firstKey_isSome _ _ cmp q gs
    cases hk : firstKey cmp q fs <;> cases hv : lastVal cmp q fs <;>
      cases hk' : firstKey cmp q gs <;> cases hv' : lastVal cmp q gs <;>
      simp_all
  · intro h
    refine ext (sorted_ofAssignments fs) (sorted_ofAssignments gs) fun q => ?_
    rw [entry_ofAssignments, entry_ofAssignments, (h q).1, (h q).2]

/-- Without two assignments to one key the map has what is assigned. -/
theorem entry_ofAssignments_distinct {fs : List (κ × ν)}
    (h : fs.Pairwise (fun e f => cmp e.1 f.1 ≠ .eq)) (q : κ) :
    entry cmp q (ofAssignments cmp fs) = entry cmp q fs := by
  induction fs using List.reverseRecOn with
  | nil => rfl
  | append_singleton fs f ih =>
    obtain ⟨hfs, -, hlast⟩ := List.pairwise_append.mp h
    have hrest := ih hfs
    rw [ofAssignments_append, entry_set (sorted_ofAssignments fs), hrest]
    by_cases hq : cmp q f.1 = .eq
    · have hnone : entry cmp q fs = none := by
        refine List.find?_eq_none.mpr fun e he heq => ?_
        have hsame : cmp q e.1 = .eq := beq_iff_eq.mp heq
        have hef := (Std.TransCmp.congr_left hsame).symm.trans hq
        exact hlast e he f List.mem_cons_self hef
      rw [if_pos hq, hnone, entry, List.find?_append, ← entry, hnone, Option.none_or,
        ← entry, entry_cons_of_eq hq]
      rfl
    · rw [if_neg hq, entry, entry, List.find?_append, ← entry, ← entry, entry_cons_of_ne hq]
      exact (Option.or_none).symm

omit [Std.TransCmp cmp] in
/-- The entries of some keys. -/
theorem entry_filter {p : κ → Bool} (hp : ∀ a b, cmp a b = .eq → p a = p b) (q : κ)
    (m : List (κ × ν)) :
    entry cmp q (m.filter (fun e => p e.1)) = if p q then entry cmp q m else none := by
  induction m with
  | nil => simp [entry]
  | cons e m ih =>
    by_cases hq : cmp q e.1 = .eq
    · rw [entry_cons_of_eq hq, List.filter_cons, hp q e.1 hq]
      cases hpe : p e.1 with
      | true => rw [if_pos rfl, entry_cons_of_eq hq, if_pos rfl]
      | false =>
        rw [hp q e.1 hq, hpe] at ih
        rw [if_neg Bool.false_ne_true, ih]
        rfl
    · rw [entry_cons_of_ne hq, List.filter_cons]
      cases hpe : p e.1 with
      | true => rw [if_pos rfl, entry_cons_of_ne hq, ih]
      | false => rw [if_neg Bool.false_ne_true, ih]

/-! ## Insertions -/

/-- Keys that are the same have the same entry. -/
theorem entry_congr {q q' : κ} (h : cmp q q' = .eq) (m : List (κ × ν)) : entry cmp q m = entry cmp q' m := by
  simp only [entry, Std.TransCmp.congr_left h]

theorem Sorted.insert {m : List (κ × ν)} (hm : Sorted cmp m) (key : κ) (val : ν) :
    Sorted cmp (insert cmp key val m) := by
  rw [OrderedMap.insert]
  split
  · exact hm
  · exact hm.set key val

theorem entry_insert {m : List (κ × ν)} (hm : Sorted cmp m) (q key : κ) (val : ν) :
    entry cmp q (insert cmp key val m) = (entry cmp q m).or (entry cmp q [(key, val)]) := by
  rw [OrderedMap.insert]
  cases hkey : entry cmp key m with
  | none =>
    rw [if_neg (by simp), entry_set hm]
    by_cases hq : cmp q key = .eq
    · simp [hq, entry_congr hq m, hkey, entry_cons_of_eq]
    · have hnone : entry cmp q [(key, val)] = none := (entry_cons_of_ne hq []).trans rfl
      simp [hq, hnone]
  | some e =>
    rw [if_pos (by simp)]
    by_cases hq : cmp q key = .eq
    · simp [entry_congr hq m, hkey]
    · have hnone : entry cmp q [(key, val)] = none := (entry_cons_of_ne hq []).trans rfl
      simp [hnone]

/-- The map after some insertions. -/
def insertAll (cmp : κ → κ → Ordering) (m fs : List (κ × ν)) : List (κ × ν) :=
  fs.foldl (fun m e => insert cmp e.1 e.2 m) m

omit [Std.TransCmp cmp] in
theorem insertAll_append (m fs gs : List (κ × ν)) :
    insertAll cmp m (fs ++ gs) = insertAll cmp (insertAll cmp m fs) gs := List.foldl_append

theorem Sorted.insertAll {m : List (κ × ν)} (hm : Sorted cmp m) (fs : List (κ × ν)) :
    Sorted cmp (insertAll cmp m fs) := by
  induction fs generalizing m with
  | nil => exact hm
  | cons f fs ih => exact ih (hm.insert f.1 f.2)

/-- The first insertion of a key is the one that counts. -/
theorem entry_insertAll {m : List (κ × ν)} (hm : Sorted cmp m) (q : κ) (fs : List (κ × ν)) :
    entry cmp q (insertAll cmp m fs) = (entry cmp q m).or (entry cmp q fs) := by
  induction fs generalizing m with
  | nil => exact (Option.or_none).symm
  | cons f fs ih =>
    have hcons : entry cmp q ([f] ++ fs) = (entry cmp q [f]).or (entry cmp q fs) := List.find?_append
    have hrest := ih (hm.insert f.1 f.2)
    rw [entry_insert hm] at hrest
    rw [← List.singleton_append, hcons, ← Option.or_assoc]
    exact hrest

/-- Inserting again what was inserted changes nothing. -/
theorem insertAll_again {m fs : List (κ × ν)} (hm : Sorted cmp m)
    (h : ∀ f ∈ fs, (entry cmp f.1 m).isSome) : insertAll cmp m fs = m := by
  refine ext (hm.insertAll fs) hm fun q => ?_
  rw [entry_insertAll hm]
  cases hq : entry cmp q fs with
  | none => exact Option.or_none
  | some f =>
    obtain ⟨hmem, heq⟩ := entry_mem hq
    have hsome := h f hmem
    rw [← entry_congr heq m] at hsome
    exact Option.or_eq_left_of_isSome hsome

theorem mem_iff {m : List (κ × ν)} (hm : Sorted cmp m) {e : κ × ν} : e ∈ m ↔ entry cmp e.1 m = some e :=
  ⟨entry_self hm, fun h => (entry_mem h).1⟩

/-- The entries of a map in another order have the same keys. -/
theorem entry_perm {m fs : List (κ × ν)} (hm : Sorted cmp m) (h : fs.Perm m) (q : κ) :
    entry cmp q fs = entry cmp q m := by
  cases hq : entry cmp q fs with
  | none =>
    refine (List.find?_eq_none.mpr fun e he => ?_).symm
    exact List.find?_eq_none.mp hq e (h.mem_iff.mpr he)
  | some f =>
    obtain ⟨hmem, heq⟩ := entry_mem hq
    rw [entry_congr heq]
    exact (entry_self hm (h.mem_iff.mp hmem)).symm

variable (ν cmp) in
/-- A map with its invariant. -/
@[ext] structure Map where
  toList : List (κ × ν)
  sorted : Sorted cmp toList

/-- The map after some insertions into an empty one. -/
def Map.ofList (fs : List (κ × ν)) : Map ν cmp := ⟨insertAll cmp [] fs, Sorted.insertAll List.Pairwise.nil fs⟩

/-- A map is put together again from its entries, in whatever order. -/
theorem Map.ofList_perm {m : Map ν cmp} {fs : List (κ × ν)} (h : fs.Perm m.toList) : Map.ofList fs = m := by
  refine Map.ext (ext (Sorted.insertAll List.Pairwise.nil fs) m.sorted fun q => ?_)
  exact (entry_insertAll List.Pairwise.nil q fs).trans (entry_perm m.sorted h q)

end Flz.Lib.OrderedMap
