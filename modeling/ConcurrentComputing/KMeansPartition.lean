import ConcurrentComputing.KMeansAgreement
import Mathlib.Algebra.BigOperators.Group.Finset.Basic

/-! # The clusters partition the points

`KMeans::run` of `kmeans475-paralell.cpp` with the drawing of the starting points, for
points of any distinct ids. Which centre is nearest and what the new centres are does
not matter here: that a point is removed from the list of the cluster it names, then
renamed, then added, leaves it in one list at the end of a pass, the one it names. -/

namespace ConcurrentComputing.KMeans

open Function Runs TruncatedSum

variable {k d n : Nat}

/-! ## The starting points -/

/-- `Point(id_point, values)`. -/
def Point.new (id_point : Int) (values : Fin d → ℚ) : Point k d := ⟨id_point, none, values⟩

/-- `Cluster(id_cluster, point)`. -/
def Cluster.new (point : Point k d) : Cluster k d := ⟨point.values, [point]⟩

/-- The loop that draws the starting points. -/
structure Drawing (k d n : Nat) where
  points : Fin n → Point k d
  prohibited_indexes : List (Fin n)
  clusters : List (Cluster k d)

namespace Drawing

def init (ids : Fin n → Int) (data : Fin n → Fin d → ℚ) : Drawing k d n :=
  ⟨fun i => .new (ids i) (data i), [], []⟩

/-- A round of the loop, with the index it draws. -/
def round (s : Drawing k d n) (index_point : Fin n) : Drawing k d n :=
  if h : s.clusters.length < k + 1 then
    if index_point ∈ s.prohibited_indexes then s
    else
      let point := { s.points index_point with id_cluster := some ⟨s.clusters.length, h⟩ }
      { points := update s.points index_point point
        prohibited_indexes := s.prohibited_indexes ++ [index_point]
        clusters := s.clusters ++ [.new point] }
  else s

/-- The state after the loop; `none` when the draws do not suffice. -/
def result (s : Drawing k d n) : Option (State k d n) :=
  if h : s.clusters.length = k + 1 then
    some ⟨s.points, fun c => s.clusters.get (c.cast h.symm)⟩
  else none

end Drawing

/-- The loop over new points, with the indexes it draws. -/
def draw (ids : Fin n → Int) (data : Fin n → Fin d → ℚ) (draws : List (Fin n)) :
    Option (State k d n) :=
  (draws.foldl Drawing.round (.init ids data)).result

/-- Every index that is drawn has a cluster of its own, which holds its point. -/
structure Drawing.Inv (ids : Fin n → Int) (data : Fin n → Fin d → ℚ) (s : Drawing k d n) :
    Prop where
  ids : ∀ i, (s.points i).id_point = ids i
  values : ∀ i, (s.points i).values = data i
  nodup : s.prohibited_indexes.Nodup
  length : s.clusters.length = s.prohibited_indexes.length
  drawn : ∀ (c : Nat) (i : Fin n), s.prohibited_indexes[c]? = some i →
    s.clusters[c]? = some (.new (s.points i)) ∧
      ∃ h : c < k + 1, (s.points i).id_cluster = some ⟨c, h⟩
  others : ∀ i, i ∉ s.prohibited_indexes → (s.points i).id_cluster = none

variable {ids : Fin n → Int} {data : Fin n → Fin d → ℚ} {i : Fin n}

theorem Drawing.Inv.init : (Drawing.init ids data : Drawing k d n).Inv ids data where
  ids := fun _ => rfl
  values := fun _ => rfl
  nodup := List.nodup_nil
  length := rfl
  drawn := fun _ _ hi => absurd hi (Option.some_ne_none _).symm
  others := fun _ _ => rfl

theorem Drawing.Inv.round {s : Drawing k d n} (h : s.Inv ids data) (index_point : Fin n) :
    (s.round index_point).Inv ids data := by
  unfold Drawing.round
  split
  · rename_i hlt
    split
    · exact h
    · rename_i hfresh
      have hdrawn : ∀ i, i ∈ s.prohibited_indexes → i ≠ index_point := by
        rintro i hi rfl
        exact hfresh hi
      refine ⟨fun i => ?_, fun i => ?_, ?_, ?_, fun c i hi => ?_, fun i hi => ?_⟩
      · by_cases hi : i = index_point
        · subst hi
          simpa using h.ids i
        · simpa [hi] using h.ids i
      · by_cases hi : i = index_point
        · subst hi
          simpa using h.values i
        · simpa [hi] using h.values i
      · exact h.nodup.append (List.nodup_singleton _)
          (List.disjoint_singleton.mpr hfresh)
      · simp [h.length]
      · dsimp only at hi ⊢
        rcases Nat.lt_or_ge c s.clusters.length with hc | hc
        · rw [List.getElem?_append_left (h.length ▸ hc)] at hi
          rw [List.getElem?_append_left hc, update_of_ne (hdrawn i (List.mem_of_getElem? hi))]
          exact h.drawn c i hi
        · rw [List.getElem?_append_right (h.length ▸ hc), ← h.length] at hi
          have hzero : c = s.clusters.length := by
            by_contra hne
            rw [List.getElem?_eq_none (by simp; omega)] at hi
            cases hi
          subst hzero
          rw [Nat.sub_self] at hi
          obtain rfl : index_point = i := by simpa using hi
          rw [List.getElem?_append_right (Nat.le_refl _), Nat.sub_self, update_self]
          exact ⟨rfl, hlt, rfl⟩
      · rw [List.mem_append, not_or, List.mem_singleton] at hi
        dsimp only
        rw [update_of_ne hi.2]
        exact h.others i hi.1
  · exact h

theorem Drawing.Inv.rounds {s : Drawing k d n} (h : s.Inv ids data) (draws : List (Fin n)) :
    (draws.foldl Drawing.round s).Inv ids data := by
  induction draws generalizing s with
  | nil => exact h
  | cons index_point draws ih => exact ih (h.round index_point)

/-- The starting points are distinct, and each is alone in its cluster. -/
structure Drawn (ids : Fin n → Int) (data : Fin n → Fin d → ℚ) (starts : Fin (k + 1) → Fin n)
    (s : State k d n) : Prop where
  injective : Injective starts
  ids : ∀ i, (s.points i).id_point = ids i
  values : ∀ i, (s.points i).values = data i
  clusters : ∀ c, s.clusters c = .new (s.points (starts c))
  cluster_iff : ∀ i c, (s.points i).id_cluster = some c ↔ starts c = i

theorem draw_spec {draws : List (Fin n)} {s : State k d n} (h : draw ids data draws = some s) :
    ∃ starts, Drawn ids data starts s := by
  have hinv : (draws.foldl Drawing.round (.init ids data : Drawing k d n)).Inv ids data :=
    Drawing.Inv.init.rounds draws
  unfold draw Drawing.result at h
  generalize draws.foldl Drawing.round (.init ids data) = r at h hinv
  split at h
  · rename_i hlen
    cases h
    have hk : r.prohibited_indexes.length = k + 1 := hinv.length.symm.trans hlen
    have hget : ∀ c : Fin (k + 1),
        r.prohibited_indexes[c.val]? = some (r.prohibited_indexes.get (c.cast hk.symm)) := fun c =>
      List.getElem?_eq_getElem _
    refine ⟨fun c => r.prohibited_indexes.get (c.cast hk.symm), fun c c' he => ?_, hinv.ids,
      hinv.values, fun c => ?_, fun i c => ⟨fun hi => ?_, fun hi => ?_⟩⟩
    · have hval := List.Nodup.injective_get hinv.nodup he
      exact Fin.ext (congrArg (fun c => c.val) hval)
    · obtain ⟨hcluster, _⟩ := hinv.drawn c _ (hget c)
      obtain ⟨hc, he⟩ := List.getElem?_eq_some_iff.mp hcluster
      exact he
    · -- a point with a cluster has been drawn, and for that cluster
      dsimp only at hi
      have hmem : i ∈ r.prohibited_indexes := by
        by_contra hnot
        rw [hinv.others i hnot] at hi
        cases hi
      obtain ⟨c', hc'⟩ := List.getElem?_of_mem hmem
      obtain ⟨_, hlt, hcluster⟩ := hinv.drawn c' i hc'
      obtain rfl := Option.some.inj (hcluster.symm.trans hi)
      exact Option.some.inj ((hget _).symm.trans hc')
    · subst hi
      obtain ⟨_, hlt, hcluster⟩ := hinv.drawn c _ (hget c)
      exact hcluster
  · cases h

/-- With the ids that `main` gives, this is the start of the serial program. -/
theorem Drawn.eq_start {starts : Fin (k + 1) → Fin n} {s : State k d n}
    (h : Drawn (fun i => (i : Nat)) data starts s) : s = .start data starts := by
  have hcluster : ∀ i, (s.points i).id_cluster =
      (List.finRange (k + 1)).find? fun c => starts c = i := by
    intro i
    cases hfind : (List.finRange (k + 1)).find? fun c => starts c = i with
    | some c => exact (h.cluster_iff i c).mpr (by simpa using List.find?_some hfind)
    | none =>
      refine Option.eq_none_iff_forall_ne_some.mpr fun c hc => ?_
      have hnot := List.find?_eq_none.mp hfind c (List.mem_finRange c)
      exact hnot (decide_eq_true ((h.cluster_iff i c).mp hc))
  have hpoints : s.points = (State.start data starts).points := by
    funext i
    simp only [State.start, ← hcluster i, ← h.values i, ← h.ids i]
  have hclusters : s.clusters = (State.start data starts).clusters := by
    funext c
    rw [h.clusters c, Cluster.new, hpoints]
    have hc := hcluster (starts c)
    rw [(h.cluster_iff _ _).mpr rfl] at hc
    simp only [State.start, ← hc]
  obtain ⟨points, clusters⟩ := s
  exact congrArg₂ State.mk hpoints hclusters

/-! ## A pass -/

/-- Of points of different ids every one that has a cluster is in its list. -/
structure Filed (s : State k d n) : Prop where
  distinct : Injective fun i => (s.points i).id_point
  lists : ∀ c, (s.clusters c).points.Perm (picked s.points (s.inCluster c))

theorem Drawn.filed {starts : Fin (k + 1) → Fin n} {s : State k d n} (h : Drawn ids data starts s)
    (hids : Injective ids) : Filed s where
  distinct := by
    have hsame : (fun i => (s.points i).id_point) = ids := funext h.ids
    rwa [hsame]
  lists := fun c => by
    have hpicked := picked_one s.points (P := s.inCluster c) (i := starts c)
      (decide_eq_true ((h.cluster_iff _ c).mpr rfl)) fun j hj =>
        decide_eq_false fun hcluster => hj ((h.cluster_iff j c).mp hcluster).symm
    rw [hpicked, h.clusters c]
    exact .refl _

/-- The same within a pass; a point whose body is through has a cluster. -/
structure Pass.Filed (p : Pass k d n) : Prop where
  distinct : Injective fun i => (p.state.points i).id_point
  listed : p.Listed
  assigned : ∀ i, p.phase i = .finished → (p.state.points i).id_cluster ≠ none

variable {s t : State k d n} {p q : Pass k d n}
  {find : (Fin (k + 1) → Cluster k d) → Point k d → Option (Fin (k + 1))}

theorem Pass.Filed.start (h : KMeans.Filed s) : Pass.Filed (.start s) where
  distinct := h.distinct
  listed := (Pass.listed_iff fun _ => rfl).mpr h.lists
  assigned := fun _ hi => absurd hi (by simp [Pass.start])

/-- The points keep their ids. -/
theorem move_id (s : State k d n) (c : Fin (k + 1)) (i j : Fin n) :
    ((s.move c i).points j).id_point = (s.points j).id_point := by
  by_cases hj : j = i
  · subst hj
    simp [State.move]
  · simp [State.move, hj]

theorem Pass.Filed.move (h : p.Filed) (hunlisted : ∀ c, p.lists c i = false) (c : Fin (k + 1)) :
    Pass.Filed ⟨p.state.move c i, update p.phase i .finished, false⟩ where
  distinct := by
    simp only [move_id]
    exact h.distinct
  listed := h.listed.move hunlisted c false
  assigned := fun j hj => by
    obtain ⟨hji, _⟩ | ⟨hji, hj⟩ := update_cases hj
    · subst hji
      simp [State.move]
    · simp only [State.move, update_of_ne hji]
      exact h.assigned j hj

theorem Pass.Filed.step (h : p.Filed) (hs : p.step find i = some q) : q.Filed := by
  unfold Pass.step at hs
  cases hphase : p.phase i with
  | start =>
    simp only [hphase] at hs
    obtain ⟨c, _, hq⟩ := Option.map_eq_some_iff.mp hs
    cases hcluster : (p.state.points i).id_cluster with
    | none =>
      simp only [hcluster] at hq
      subst hq
      refine h.move (fun c' => ?_) c
      simp [Pass.lists, State.inCluster, hcluster]
    | some old =>
      simp only [hcluster] at hq
      split at hq
      · subst hq
        refine ⟨h.distinct, h.listed.stay hphase _, fun j hj => ?_⟩
        obtain ⟨hji, _⟩ | ⟨_, hj⟩ := update_cases hj
        · rw [hji, hcluster]
          exact Option.some_ne_none _
        · exact h.assigned j hj
      · subst hq
        refine ⟨h.distinct, h.listed.remove h.distinct hphase hcluster _, fun j hj => ?_⟩
        obtain ⟨_, he⟩ | ⟨_, hj⟩ := update_cases hj
        · cases he
        · exact h.assigned j hj
  | removed c =>
    simp only [hphase] at hs
    cases hs
    refine h.move (fun c' => ?_) c
    simp [Pass.lists, hphase, Phase.isRemoved]
  | finished =>
    simp only [hphase] at hs
    cases hs
    exact h

/-- After a complete pass every point is filed, and has a cluster. -/
theorem Filed.pass (h : Filed s) {schedule : List (Fin n)} (hcomplete : Complete schedule)
    (hq : schedule.foldlM (Pass.step find) (.start s) = some q) :
    Filed q.state ∧ ∀ i, (q.state.points i).id_cluster ≠ none := by
  have hfiled : q.Filed := by
    rw [← exec_eq_foldlM] at hq
    exact exec_invariant (Pass.Filed.start h) (fun _ _ _ hp hs => hp.step hs) hq
  have hfinished := finished_of_complete hcomplete hq
  have hwhole : ∀ i, (q.phase i).isRemoved = false := fun i => by rw [hfinished i]; rfl
  exact ⟨⟨hfiled.distinct, (Pass.listed_iff hwhole).mp hfiled.listed⟩,
    fun i => hfiled.assigned i (hfinished i)⟩

/-- Where a nearest centre is always found, a pass goes through. -/
theorem pass_isSome (hfind : ∀ clusters point, (find clusters point).isSome)
    (schedule : List (Fin n)) (p : Pass k d n) :
    (schedule.foldlM (Pass.step find) p).isSome := by
  induction schedule generalizing p with
  | nil => rfl
  | cons i schedule ih =>
    have hstep : (p.step find i).isSome := by
      unfold Pass.step
      split
      · rw [Option.isSome_map]
        exact hfind _ _
      · rfl
      · rfl
    obtain ⟨q, hq⟩ := Option.isSome_iff_exists.mp hstep
    rw [List.foldlM_cons, hq]
    exact ih q

/-! ## The partition -/

/-- Every point is in the list of its own cluster, once, and in no other; the copies in
a list name that cluster; no list holds anything else. -/
structure Partitioned (s : State k d n) : Prop where
  once : ∀ i, ∃ c, (s.points i).id_cluster = some c ∧ ∀ c',
    (s.clusters c').points.countP (fun point => point.id_point = (s.points i).id_point) =
      if c' = c then 1 else 0
  copies : ∀ c, ∀ point ∈ (s.clusters c).points,
    point.id_cluster = some c ∧ ∃ i, point = s.points i
  sizes : ∑ c, (s.clusters c).points.length = n

/-- A point that is picked is picked once. -/
theorem countP_picked {points : Fin n → Point k d} (h : Injective fun i => (points i).id_point)
    (P : Fin n → Bool) (i : Fin n) :
    (picked points P).countP (fun point => point.id_point = (points i).id_point) =
      if P i = true then 1 else 0 := by
  have hsame : ∀ j, (points j).id_point = (points i).id_point ↔ j = i := fun j => h.eq_iff
  simp only [picked, List.countP_map, Function.comp_def, hsame]
  split
  · rename_i hi
    exact List.count_eq_one_of_mem ((List.nodup_finRange n).filter P)
      (List.mem_filter.mpr ⟨List.mem_finRange i, hi⟩)
  · rename_i hi
    exact List.count_eq_zero_of_not_mem fun hmem => hi (List.mem_filter.mp hmem).2

theorem Filed.partitioned (h : Filed s) (hassigned : ∀ i, (s.points i).id_cluster ≠ none) :
    Partitioned s := by
  choose cluster hcluster using fun i => Option.ne_none_iff_exists'.mp (hassigned i)
  have hin : ∀ c i, s.inCluster c i = true ↔ cluster i = c := fun c i => by
    rw [State.inCluster, decide_eq_true_iff, hcluster, Option.some.injEq]
  refine ⟨fun i => ⟨cluster i, hcluster i, fun c' => ?_⟩, fun c point hmem => ?_, ?_⟩
  · rw [(h.lists c').countP_eq, countP_picked h.distinct]
    exact if_congr ((hin c' i).trans eq_comm) rfl rfl
  · obtain ⟨i, hi, rfl⟩ := List.mem_map.mp ((h.lists c).mem_iff.mp hmem)
    refine ⟨?_, i, rfl⟩
    rw [hcluster, (hin c i).mp (List.mem_filter.mp hi).2]
  · have hlength : ∀ c, (s.clusters c).points.length =
        (Finset.univ.filter (cluster · = c)).card := by
      intro c
      rw [(h.lists c).length_eq, picked, List.length_map,
        ← List.toFinset_card_of_nodup ((List.nodup_finRange n).filter _)]
      refine congrArg _ (Finset.ext fun i => ?_)
      simp [hin]
    simp only [hlength]
    rw [← Finset.card_eq_sum_card_fiberwise fun i _ => Finset.mem_coe.mpr (Finset.mem_univ _)]
    exact Finset.card_fin n

/-! ## A run -/

def State.setCenters (s : State k d n) (centers : Fin (k + 1) → Fin d → ℚ) : State k d n :=
  { s with clusters := fun c => { s.clusters c with central_values := centers c } }

/-- The states after the assignment passes of the `while(true)`, with the iterations
left after the first, whatever finds the nearest centres and recalculates them. -/
def passStates (find : (Fin (k + 1) → Cluster k d) → Point k d → Option (Fin (k + 1)))
    (centers : Nat → State k d n → Option (Fin (k + 1) → Fin d → ℚ))
    (schedules : Nat → List (Fin n)) : Nat → Nat → State k d n → List (State k d n)
  | iter, 0, s =>
    match (schedules iter).foldlM (Pass.step find) (.start s) with
    | none => []
    | some p => [p.state]
  | iter, remaining + 1, s =>
    match (schedules iter).foldlM (Pass.step find) (.start s) with
    | none => []
    | some p => p.state :: if p.done then [] else
      match centers iter p.state with
      | none => []
      | some new => passStates find centers schedules (iter + 1) remaining (p.state.setCenters new)

/-- The centres that the program recalculates. -/
def Parallel.newCenters (choices : Nat → Choice k d n) (iter : Nat) (s : State k d n) :
    Option (Fin (k + 1) → Fin d → ℚ) :=
  (recenter (choices iter).split s).map fun t c => (t.clusters c).central_values

variable {centers : Nat → State k d n → Option (Fin (k + 1) → Fin d → ℚ)}
  {schedules : Nat → List (Fin n)}

theorem Filed.setCenters (h : Filed s) (new : Fin (k + 1) → Fin d → ℚ) :
    Filed (s.setCenters new) := ⟨h.distinct, h.lists⟩

theorem Filed.passStates (h : Filed s) (hcomplete : ∀ iter, Complete (schedules iter))
    (iter remaining : Nat) :
    ∀ t ∈ passStates find centers schedules iter remaining s, Partitioned t := by
  induction remaining generalizing iter s with
  | zero =>
    intro t ht
    rw [KMeans.passStates] at ht
    split at ht
    · cases ht
    · rename_i p hp
      obtain ⟨hfiled, hassigned⟩ := h.pass (hcomplete iter) hp
      rw [List.mem_singleton.mp ht]
      exact hfiled.partitioned hassigned
  | succ remaining ih =>
    intro t ht
    rw [KMeans.passStates] at ht
    split at ht
    · cases ht
    · rename_i p hp
      obtain ⟨hfiled, hassigned⟩ := h.pass (hcomplete iter) hp
      rcases List.mem_cons.mp ht with rfl | ht
      · exact hfiled.partitioned hassigned
      · split at ht
        · cases ht
        · split at ht
          · cases ht
          · rename_i new _
            exact ih (hfiled.setCenters new) (iter + 1) t ht

/-- **Partition.** For points of any distinct ids and any draws of starting points,
whatever finds the nearest centres and recalculates them: after every assignment pass,
in whatever interleaving, the clusters partition the points. -/
theorem clusters_partition_points (hids : Injective ids) {draws : List (Fin n)}
    (hdraw : draw ids data draws = some s) (hcomplete : ∀ iter, Complete (schedules iter))
    (max_iterations : Int) :
    ∀ t ∈ passStates find centers schedules 1 (max_iterations - 1).toNat s, Partitioned t := by
  obtain ⟨starts, hdrawn⟩ := draw_spec hdraw
  exact (hdrawn.filed hids).passStates hcomplete 1 _

/-- The bodies for four points take turns. -/
def inTurns (_ : Nat) : Parallel.Choice 1 1 4 := ⟨[3, 0, 1, 2, 0, 3, 2, 1], fun _ _ => .leaf⟩

/-- Points of two groups, under ids that are not their indexes. The second draw repeats
the first, and the second iteration is the last. -/
theorem clusters_partition_points_two_groups :
    ∃ s t u, draw ![7, -3, 0, 5] twoGroups [2, 2, 0] = some s ∧
      passStates Parallel.getIDNearestCenter (Parallel.newCenters inTurns)
        (fun iter => (inTurns iter).schedule) 1 9 s = [t, u] ∧ Partitioned t ∧ Partitioned u := by
  have hrun : (draw ![7, -3, 0, 5] twoGroups [2, 2, 0]).map (fun s =>
      (passStates Parallel.getIDNearestCenter (Parallel.newCenters inTurns)
        (fun iter => (inTurns iter).schedule) 1 9 s).length) = some 2 := by
    decide +kernel
  obtain ⟨s, hs, hlen⟩ := Option.map_eq_some_iff.mp hrun
  obtain ⟨t, u, htu⟩ := List.length_eq_two.mp hlen
  have hcomplete : ∀ iter, Complete (inTurns iter).schedule := by
    unfold Complete inTurns
    exact fun _ => by decide
  have hall : ∀ t ∈ passStates Parallel.getIDNearestCenter (Parallel.newCenters inTurns)
      (fun iter => (inTurns iter).schedule) 1 (10 - 1 : Int).toNat s, Partitioned t :=
    clusters_partition_points (by decide) hs hcomplete 10
  rw [show (10 - 1 : Int).toNat = 9 from rfl, htu] at hall
  exact ⟨s, t, u, hs, htu, hall t (by simp), hall u (by simp)⟩

/-! ## The program's own centres -/

namespace Parallel

/-- The clusters of the outcome are those after an assignment pass. -/
theorem loop_passStates {choices : Nat → Choice k d n} {iter remaining : Nat}
    {o : Outcome k d n} (h : loop choices iter remaining s = some o) :
    ∃ t ∈ passStates getIDNearestCenter (newCenters choices) (fun iter => (choices iter).schedule)
      iter remaining s, ∀ i, o.cluster i = (t.points i).id_cluster := by
  have hpoints : ∀ {split : Fin (k + 1) → Fin d → Split} {s t : State k d n},
      recenter split s = some t →
        t = s.setCenters (fun c => (t.clusters c).central_values) := by
    intro split s t ht
    rw [recenter] at ht
    split at ht
    · cases ht
      rfl
    · cases ht
  induction remaining generalizing iter s with
  | zero =>
    obtain ⟨⟨t, done⟩, hiter, rfl⟩ := Option.map_eq_some_iff.mp h
    obtain ⟨p, hp, hrest⟩ := Option.bind_eq_some_iff.mp hiter
    obtain ⟨t', ht, he⟩ := Option.map_eq_some_iff.mp hrest
    obtain ⟨rfl, rfl⟩ := Prod.mk.inj he
    refine ⟨p.state, ?_, fun i => ?_⟩
    · rw [pass] at hp
      simp only [passStates, hp, List.mem_singleton]
    · rw [hpoints ht]
      rfl
  | succ remaining ih =>
    obtain ⟨⟨t, done⟩, hiter, hrest⟩ := Option.bind_eq_some_iff.mp h
    obtain ⟨p, hp, hmap⟩ := Option.bind_eq_some_iff.mp hiter
    obtain ⟨t', ht, he⟩ := Option.map_eq_some_iff.mp hmap
    obtain ⟨rfl, rfl⟩ := Prod.mk.inj he
    rw [pass] at hp
    simp only [passStates, hp]
    dsimp only at hrest
    split at hrest
    · cases hrest
      refine ⟨p.state, List.mem_cons_self, fun i => ?_⟩
      rw [hpoints ht]
      rfl
    · rename_i hdone
      obtain ⟨u, hu, ho⟩ := ih hrest
      refine ⟨u, List.mem_cons_of_mem _ ?_, ho⟩
      rw [if_neg hdone]
      simp only [newCenters, ht, Option.map_some]
      rwa [← hpoints ht]

/-- What a run ends with are the clusters of a partition. -/
theorem loop_partitioned {choices : Nat → Choice k d n} {iter remaining : Nat}
    {o : Outcome k d n} (h : Filed s) (hcomplete : ∀ iter, Complete (choices iter).schedule)
    (hloop : loop choices iter remaining s = some o) :
    ∃ t : State k d n, Partitioned t ∧ ∀ i, o.cluster i = (t.points i).id_cluster := by
  obtain ⟨t, ht, ho⟩ := loop_passStates hloop
  exact ⟨t, h.passStates hcomplete iter remaining t ht, ho⟩

end Parallel

end ConcurrentComputing.KMeans
