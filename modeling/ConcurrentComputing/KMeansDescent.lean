import ConcurrentComputing.KMeansPartition
import ConcurrentComputing.LeastSquares
import Mathlib.Algebra.BigOperators.Fin

/-! # What the iterations achieve

`KMeans::run` of `solution.cpp`, which is that of `kmeans475-serial.cpp` over again: no
iteration raises the sum of the squared distances, and a run that stops because no
point moved has converged. -/

namespace ConcurrentComputing.KMeans

open Function Runs FirstMinimum LeastSquares

variable {k d n : Nat}

/-! ## The iterations of a run -/

def iteration (s : State k d n) : State k d n := recenter (pass s).1

/-- The states after the iterations of the `while(true)`, with `done`. -/
def iterations : Nat → State k d n → List (State k d n × Bool)
  | 0, s => [(iteration s, (pass s).2)]
  | remaining + 1, s =>
    (iteration s, (pass s).2) :: if (pass s).2 then [] else iterations remaining (iteration s)

variable {s : State k d n} {p : State k d n × Bool} {c : Fin (k + 1)} {i : Fin n}

theorem iterations_head (remaining : Nat) (s : State k d n) :
    ∃ rest, iterations remaining s = (iteration s, (pass s).2) :: rest := by
  cases remaining <;> exact ⟨_, rfl⟩

/-- A run prints what the last of them leaves. -/
theorem loop_iterations (iter remaining : Nat) (s : State k d n) :
    ∃ t done, (iterations remaining s).getLast? = some (t, done) ∧
      loop iter remaining s = outcome t (iter + (iterations remaining s).length - 1) := by
  induction remaining generalizing iter s with
  | zero => exact ⟨_, _, rfl, rfl⟩
  | succ remaining ih =>
    rw [iterations, loop]
    split
    · exact ⟨_, _, rfl, rfl⟩
    · obtain ⟨t, done, hlast, hloop⟩ := ih (iter + 1) (iteration s)
      refine ⟨t, done, ?_, ?_⟩
      · rw [List.getLast?_cons, hlast, Option.getD_some]
      · rw [List.length_cons]
        exact hloop.trans (congrArg _ (by omega))

/-! ## The serial pass -/

theorem nearest_congr {clusters clusters' : Fin (k + 1) → Cluster k d}
    (h : ∀ c, (clusters' c).central_values = (clusters c).central_values) (point : Point k d) :
    getIDNearestCenter clusters' point = getIDNearestCenter clusters point := by
  simp only [getIDNearestCenter, h]

theorem reassign_points (p : State k d n × Bool) (i : Fin n) :
    (reassign p i).1.points = update p.1.points i { p.1.points i with
      id_cluster := some (getIDNearestCenter p.1.clusters (p.1.points i)) } := by
  rw [reassign]
  split
  · rename_i hsame
    rw [← hsame, update_eq_self]
  · split <;> rfl

theorem reassign_centers (p : State k d n × Bool) (i : Fin n) (c : Fin (k + 1)) :
    ((reassign p i).1.clusters c).central_values = (p.1.clusters c).central_values := by
  have hremove : ∀ (s : State k d n) old,
      ((s.remove old i).clusters c).central_values = (s.clusters c).central_values := by
    intro s old
    by_cases hc : c = old
    · subst hc
      simp [State.remove, Cluster.removePoint]
    · simp [State.remove, hc]
  have hmove : ∀ (s : State k d n) new,
      ((s.move new i).clusters c).central_values = (s.clusters c).central_values := by
    intro s new
    by_cases hc : c = new
    · subst hc
      simp [State.move, Cluster.addPoint]
    · simp [State.move, hc]
  rw [reassign]
  split
  · rfl
  · split
    · rw [hmove, hremove]
    · exact hmove _ _

/-- `done` is left alone only by a body that changes nothing. -/
theorem reassign_done (h : (reassign p i).2 = true) : reassign p i = p ∧
    (p.1.points i).id_cluster = some (getIDNearestCenter p.1.clusters (p.1.points i)) := by
  rw [reassign] at h ⊢
  split
  · rename_i hsame
    exact ⟨rfl, hsame⟩
  · rename_i hother
    rw [if_neg hother] at h
    split at h <;> cases h

theorem pass_centers (s : State k d n) (c : Fin (k + 1)) :
    ((pass s).1.clusters c).central_values = (s.clusters c).central_values := by
  have hloop : ∀ (l : List (Fin n)) (p : State k d n × Bool),
      ((l.foldl reassign p).1.clusters c).central_values = (p.1.clusters c).central_values := by
    intro l
    induction l with
    | nil => exact fun _ => rfl
    | cons i l ih => exact fun p => (ih _).trans (reassign_centers p i c)
  exact hloop _ _

theorem foldl_reassign_points {l : List (Fin n)} (hnodup : l.Nodup) (p : State k d n × Bool)
    (i : Fin n) :
    (l.foldl reassign p).1.points i = if i ∈ l then { p.1.points i with
      id_cluster := some (getIDNearestCenter p.1.clusters (p.1.points i)) } else p.1.points i := by
  induction l generalizing p with
  | nil => rfl
  | cons j l ih =>
    obtain ⟨hj, hnodup⟩ := List.nodup_cons.mp hnodup
    rw [List.foldl_cons, ih hnodup, reassign_points,
      nearest_congr (fun c => reassign_centers p j c)]
    by_cases hij : i = j
    · subst hij
      simp [hj]
    · simp [hij]

theorem pass_points (s : State k d n) :
    (pass s).1.points = assigned s fun i => getIDNearestCenter s.clusters (s.points i) := by
  funext i
  rw [pass, foldl_reassign_points (List.nodup_finRange n), if_pos (List.mem_finRange i), assigned]

/-- A pass that ends with `done` has found every point where it belongs. -/
theorem pass_done (h : (pass s).2 = true) : (pass s).1 = s ∧
    ∀ i, (s.points i).id_cluster = some (getIDNearestCenter s.clusters (s.points i)) := by
  have hloop : ∀ (l : List (Fin n)) (p : State k d n × Bool), (l.foldl reassign p).2 = true →
      l.foldl reassign p = p := by
    intro l
    induction l with
    | nil => exact fun _ _ => rfl
    | cons i l ih =>
      intro p hp
      rw [List.foldl_cons] at hp ⊢
      have hrest := ih _ hp
      rw [hrest] at hp ⊢
      exact (reassign_done hp).1
  have hsame : (pass s).1 = s := congrArg Prod.fst (hloop _ _ h)
  refine ⟨hsame, fun i => ?_⟩
  have hpoint := congrFun (pass_points s) i
  rw [hsame] at hpoint
  exact congrArg Point.id_cluster hpoint

theorem Filed.serialPass (h : Filed s) :
    Filed (KMeans.pass s).1 ∧ ∀ i, ((KMeans.pass s).1.points i).id_cluster ≠ none := by
  obtain ⟨phase, hserial⟩ := serial_eq (p := .start s) (List.finRange n) (List.nodup_finRange n)
    fun _ _ => rfl
  exact h.pass serial_complete hserial

theorem Filed.iteration (h : Filed s) :
    Filed (iteration s) ∧ ∀ i, ((iteration s).points i).id_cluster ≠ none := by
  obtain ⟨hfiled, hassigned⟩ := h.serialPass
  exact ⟨⟨hfiled.distinct, hfiled.lists⟩, hassigned⟩

/-! ## The new centres are means -/

theorem sumOfSquares_eq (center point : Fin d → ℚ) :
    sumOfSquares center point = sqDist center point := by
  rw [sumOfSquares, foldl_add, zero_add, sqDist, Fin.sum_univ_def]

/-- The points that name a cluster. -/
abbrev named (s : State k d n) (c : Fin (k + 1)) : Finset (Fin n) :=
  {i | (s.points i).id_cluster = some c}

theorem sum_picked (s : State k d n) (c : Fin (k + 1)) (f : Point k d → ℚ) :
    ((picked s.points (s.inCluster c)).map f).sum = ∑ i ∈ named s c, f (s.points i) := by
  have hnodup := (List.nodup_finRange n).filter (s.inCluster c)
  rw [picked, List.map_map, ← List.sum_toFinset _ hnodup]
  refine Finset.sum_congr (Finset.ext fun i => ?_) fun _ _ => rfl
  simp [State.inCluster]

theorem length_picked (s : State k d n) (c : Fin (k + 1)) :
    (picked s.points (s.inCluster c)).length = (named s c).card := by
  have hnodup := (List.nodup_finRange n).filter (s.inCluster c)
  rw [picked, List.length_map, ← List.toFinset_card_of_nodup hnodup]
  refine congrArg _ (Finset.ext fun i => ?_)
  simp [State.inCluster]

theorem Filed.center_eq (h : Filed s) (hne : (named s c).Nonempty) :
    center (s.clusters c) = mean (named s c) fun i => (s.points i).values := by
  have hpicked : picked s.points (s.inCluster c) ≠ [] := fun he => by
    have hlength := length_picked s c
    rw [he, List.length_nil] at hlength
    exact hne.card_ne_zero hlength.symm
  rw [KMeans.center_eq (h.lists c), meanOf, if_neg hpicked]
  funext j
  rw [coordinates, sum_picked, length_picked, mean]

/-! ## Descent -/

/-- The sum over all points of the squared distance to the centre of their own cluster. -/
def State.cost (s : State k d n) : ℚ :=
  ∑ i, (s.points i).id_cluster.elim 0 fun c =>
    sumOfSquares (s.clusters c).central_values (s.points i).values

theorem State.cost_eq {own : Fin n → Fin (k + 1)}
    (h : ∀ i, (s.points i).id_cluster = some (own i)) :
    s.cost = LeastSquares.cost (fun i => (s.points i).values) own
      fun c => (s.clusters c).central_values := by
  simp only [State.cost, h, Option.elim_some, sumOfSquares_eq, LeastSquares.cost]

/-- The points go to nearer centres, and these to the means. -/
theorem Filed.cost_iteration (h : Filed s) (hassigned : ∀ i, (s.points i).id_cluster ≠ none) :
    (KMeans.iteration s).cost ≤ s.cost := by
  choose own hown using fun i => Option.ne_none_iff_exists'.mp (hassigned i)
  let nearest : Fin n → Fin (k + 1) := fun i => getIDNearestCenter s.clusters (s.points i)
  let centers : Fin (k + 1) → Fin d → ℚ := fun c => (s.clusters c).central_values
  let means : Fin (k + 1) → Fin d → ℚ := fun c => center ((KMeans.pass s).1.clusters c)
  have hpoints : ∀ i, (KMeans.pass s).1.points i = assigned s nearest i := congrFun (pass_points s)
  have hcost : (KMeans.iteration s).cost =
      LeastSquares.cost (fun i => (s.points i).values) nearest means := by
    have hown' : ∀ i, ((KMeans.iteration s).points i).id_cluster = some (nearest i) := fun i =>
      congrArg Point.id_cluster (hpoints i)
    have hvalues : ∀ i, ((KMeans.iteration s).points i).values = (s.points i).values := by
      intro i
      have hi := congrArg Point.values (hpoints i)
      exact hi
    rw [State.cost_eq hown']
    simp only [hvalues]
    rfl
  rw [hcost, State.cost_eq hown]
  have hmeans : LeastSquares.cost (fun i => (s.points i).values) nearest means ≤
      LeastSquares.cost (fun i => (s.points i).values) nearest centers := by
    refine cost_mean fun i => ?_
    have hnamed : ∀ c, named (KMeans.pass s).1 c = members nearest c := by
      intro c
      simp only [named, members, hpoints, assigned, Option.some.injEq]
    have hmem : i ∈ named (KMeans.pass s).1 (nearest i) := by
      rw [hnamed]
      exact Finset.mem_filter.mpr ⟨Finset.mem_univ i, rfl⟩
    have hcenter := h.serialPass.1.center_eq ⟨i, hmem⟩
    rw [hnamed] at hcenter
    simpa only [hpoints, assigned] using hcenter
  have hnearer : LeastSquares.cost (fun i => (s.points i).values) nearest centers ≤
      LeastSquares.cost (fun i => (s.points i).values) own centers := by
    refine cost_nearer fun i => ?_
    rw [← sumOfSquares_eq, ← sumOfSquares_eq]
    exact (first_firstMin fun c => sumOfSquares (centers c) (s.points i).values).least (own i)
  exact hmeans.trans hnearer

theorem Filed.iterations (h : Filed s) (remaining : Nat) :
    (∀ t ∈ iterations remaining s, ∀ i, (t.1.points i).id_cluster ≠ none) ∧
      (iterations remaining s).IsChain fun t u => u.1.cost ≤ t.1.cost := by
  obtain ⟨hfiled, hassigned⟩ := h.iteration
  induction remaining generalizing s with
  | zero => exact ⟨fun t ht => by rwa [List.mem_singleton.mp ht], List.isChain_singleton _⟩
  | succ remaining ih =>
    rw [KMeans.iterations]
    split
    · exact ⟨fun t ht => by rwa [List.mem_singleton.mp ht], List.isChain_singleton _⟩
    · obtain ⟨hall, hchain⟩ := ih hfiled hfiled.iteration.1 hfiled.iteration.2
      refine ⟨fun t ht => ?_, ?_⟩
      · rcases List.mem_cons.mp ht with rfl | ht
        · exact hassigned
        · exact hall t ht
      · obtain ⟨rest, hrest⟩ := iterations_head remaining (KMeans.iteration s)
        rw [hrest] at hchain ⊢
        exact List.isChain_cons_cons.mpr ⟨hfiled.cost_iteration hassigned, hchain⟩

variable {ids : Fin n → Int} {data : Fin n → Fin d → ℚ} {draws : List (Fin n)}

/-- **Descent.** Whatever the points and the draws, no iteration ends with a larger sum
of squared distances than the iteration before it. -/
theorem lloyd_descent (hids : Injective ids) (hdraw : draw ids data draws = some s)
    (max_iterations : Int) :
    (∀ t ∈ iterations (max_iterations - 1).toNat s, ∀ i, (t.1.points i).id_cluster ≠ none) ∧
      (iterations (max_iterations - 1).toNat s).IsChain fun t u => u.1.cost ≤ t.1.cost := by
  obtain ⟨starts, hdrawn⟩ := draw_spec hdraw
  exact (hdrawn.filed hids).iterations _

/-- From the first two points of two groups the sum goes down. -/
theorem lloyd_descent_two_groups :
    ∃ s t u v, draw (k := 1) ![0, 1, 2, 3] twoGroups [0, 1] = some s ∧
      iterations 9 s = [t, u, v] ∧ u.1.cost ≤ t.1.cost ∧ v.1.cost ≤ u.1.cost := by
  have hrun : (draw (k := 1) ![0, 1, 2, 3] twoGroups [0, 1]).map
      (fun s => (iterations 9 s).length) = some 3 := by
    decide +kernel
  obtain ⟨s, hs, hlen⟩ := Option.map_eq_some_iff.mp hrun
  obtain ⟨t, u, v, htuv⟩ := List.length_eq_three.mp hlen
  obtain ⟨-, hchain⟩ := lloyd_descent (by decide) hs 10
  rw [show (10 - 1 : Int).toNat = 9 from rfl, htuv] at hchain
  obtain ⟨hu, hrest⟩ := List.isChain_cons_cons.mp hchain
  exact ⟨s, t, u, v, hs, htuv, hu, (List.isChain_cons_cons.mp hrest).1⟩

/-! ## Convergence -/

noncomputable def distance (center point : Fin d → ℚ) : ℝ := √(sumOfSquares center point : ℝ)

/-- Every point is in the first of the nearest clusters, and the centre of a cluster that
has points is the mean of those that name it, which its list holds. -/
structure Converged (s : State k d n) : Prop where
  nearest : ∀ i, ∃ c, (s.points i).id_cluster = some c ∧
    First (fun c => distance (s.clusters c).central_values (s.points i).values) c
  lists : ∀ c, (s.clusters c).points.Perm (picked s.points (s.inCluster c))
  means : ∀ c, (s.clusters c).points ≠ [] →
    (s.clusters c).central_values = mean (named s c) fun i => (s.points i).values

theorem first_distance {clusters : Fin (k + 1) → Cluster k d} {point : Point k d}
    (h : First (fun c => sumOfSquares (clusters c).central_values point.values) c) :
    First (fun c => distance (clusters c).central_values point.values) c :=
  ⟨fun i => not_lt.mp fun hlt => absurd (h.least i) (not_le.mpr ((sqrt_lt_iff _ _ _).mp hlt)),
    fun i hi => (sqrt_lt_iff _ _ _).mpr (h.lowest i hi)⟩

theorem recenter_recenter (s : State k d n) : recenter (recenter s) = recenter s := by
  have hcenter : ∀ c : Cluster k d, center { c with central_values := center c } = center c := by
    intro c
    by_cases hnil : c.points = []
    · rw [center, if_pos hnil]
    · rw [center, center, if_neg hnil, if_neg hnil]
  simp only [recenter, hcenter]

/-- A single point is its own mean. -/
theorem Drawn.recenter {starts : Fin (k + 1) → Fin n} (h : Drawn ids data starts s) :
    recenter s = s := by
  have hcenter : ∀ c, center (s.clusters c) = (s.clusters c).central_values := by
    intro c
    rw [h.clusters c]
    simp [center, Cluster.new]
  simp only [KMeans.recenter, hcenter]

/-- Where no point moves the centres stay as well, since they were means already. -/
theorem Filed.converged (h : Filed s) (hmeans : recenter s = s) (hdone : (KMeans.pass s).2 = true) :
    Converged (KMeans.iteration s) := by
  obtain ⟨hsame, hnearest⟩ := pass_done hdone
  rw [KMeans.iteration, hsame, hmeans]
  refine ⟨fun i => ⟨_, hnearest i, first_distance (first_firstMin _)⟩, h.lists, fun c hne => ?_⟩
  have hnamed : (named s c).Nonempty := by
    rw [← Finset.card_pos, ← length_picked, ← (h.lists c).length_eq]
    exact List.length_pos_iff.mpr hne
  rw [← h.center_eq hnamed]
  have hcluster := congrArg (fun s : State k d n => (s.clusters c).central_values) hmeans
  exact hcluster.symm

theorem Filed.iterations_converged (h : Filed s) (hmeans : recenter s = s) (remaining : Nat)
    {t : State k d n} (ht : (t, true) ∈ KMeans.iterations remaining s) : Converged t := by
  induction remaining generalizing s with
  | zero =>
    obtain ⟨rfl, hdone⟩ := Prod.mk.inj (List.mem_singleton.mp ht)
    exact h.converged hmeans hdone.symm
  | succ remaining ih =>
    rw [KMeans.iterations] at ht
    rcases List.mem_cons.mp ht with he | ht
    · obtain ⟨rfl, hdone⟩ := Prod.mk.inj he
      exact h.converged hmeans hdone.symm
    · split at ht
      · cases ht
      · exact ih h.iteration.1 (recenter_recenter _) ht

/-- **Convergence.** Whatever the points and the draws, a run that ends with `done` ends
in a fixed point of both halves of an iteration. -/
theorem done_converged (hids : Injective ids) (hdraw : draw ids data draws = some s)
    (max_iterations : Int) {t : State k d n}
    (ht : (t, true) ∈ iterations (max_iterations - 1).toNat s) : Converged t := by
  obtain ⟨starts, hdrawn⟩ := draw_spec hdraw
  exact (hdrawn.filed hids).iterations_converged hdrawn.recenter _ ht

theorem done_converged_two_groups :
    ∃ s t u v, draw (k := 1) ![7, -3, 0, 5] twoGroups [0, 1] = some s ∧
      iterations 9 s = [t, u, (v, true)] ∧ Converged v := by
  have hrun : (draw (k := 1) ![7, -3, 0, 5] twoGroups [0, 1]).map
      (fun s => (iterations 9 s).map Prod.snd) = some [false, false, true] := by
    decide +kernel
  obtain ⟨s, hs, hdone⟩ := Option.map_eq_some_iff.mp hrun
  obtain ⟨t, u, v, htuv⟩ := List.length_eq_three.mp (by simpa using congrArg List.length hdone)
  obtain ⟨v, done⟩ := v
  simp only [htuv, List.map_cons, List.cons.injEq] at hdone
  obtain ⟨-, -, rfl, -⟩ := hdone
  refine ⟨s, t, u, v, hs, htuv, done_converged (by decide) hs 10 ?_⟩
  rw [show (10 - 1 : Int).toNat = 9 from rfl, htuv]
  simp

end ConcurrentComputing.KMeans
