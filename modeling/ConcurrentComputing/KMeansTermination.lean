import ConcurrentComputing.KMeansDescent

/-! # The iterations come to an end

Without a limit `KMeans::run` of `solution.cpp` still ends: as long as points move, the
sum of the squared distances around the means goes down, or it stays and the points go
to clusters of lower indices. -/

namespace ConcurrentComputing.KMeans

open Function FirstMinimum LeastSquares

variable {k d n : Nat} {s : State k d n} {ids : Fin n → Int} {data : Fin n → Fin d → ℚ}
  {draws : List (Fin n)}

/-! ## A pass that moves nothing -/

theorem pass_settled
    (h : ∀ i, (s.points i).id_cluster = some (getIDNearestCenter s.clusters (s.points i))) :
    (pass s).2 = true := by
  have hloop : ∀ l : List (Fin n), l.foldl reassign (s, true) = (s, true) := by
    intro l
    induction l with
    | nil => rfl
    | cons i l ih =>
      rw [List.foldl_cons, reassign, if_pos (h i)]
      exact ih
  rw [pass, hloop]

/-! ## One iteration -/

/-- The cluster that a point names; those that name none are of no account. -/
def own (s : State k d n) (i : Fin n) : Fin (k + 1) := (s.points i).id_cluster.getD ⟨0, Nat.succ_pos k⟩

theorem iteration_points (s : State k d n) (i : Fin n) : (iteration s).points i =
    { s.points i with id_cluster := some (getIDNearestCenter s.clusters (s.points i)) } :=
  congrFun (pass_points s) i

theorem own_iteration (s : State k d n) (i : Fin n) :
    own (iteration s) i = getIDNearestCenter s.clusters (s.points i) := by
  rw [own, iteration_points, Option.getD_some]

/-- What an iteration leaves: the lists are those of the points, every point names a
cluster, and the centres are means. -/
structure Recentered (data : Fin n → Fin d → ℚ) (s : State k d n) : Prop where
  filed : Filed s
  assigned : ∀ i, (s.points i).id_cluster ≠ none
  means : recenter s = s
  values : ∀ i, (s.points i).values = data i

theorem Filed.recentered (h : Filed s) (hvalues : ∀ i, (s.points i).values = data i) :
    Recentered data (KMeans.iteration s) where
  filed := h.iteration.1
  assigned := h.iteration.2
  means := recenter_recenter _
  values i := by
    rw [iteration_points]
    exact hvalues i

theorem Recentered.own_spec (h : Recentered data s) (i : Fin n) :
    (s.points i).id_cluster = some (own s i) := by
  obtain ⟨c, hc⟩ := Option.ne_none_iff_exists'.mp (h.assigned i)
  rw [own, hc, Option.getD_some]

theorem Recentered.center_eq (h : Recentered data s) (i : Fin n) :
    (s.clusters (own s i)).central_values = mean (members (own s) (own s i)) data := by
  have hnamed : named s (own s i) = members (own s) (own s i) := by
    simp only [named, members, h.own_spec, Option.some.injEq]
  have hcenter := h.filed.center_eq (c := own s i) ⟨i, by simp [named, h.own_spec]⟩
  have hmeans := congrArg (fun s : State k d n => (s.clusters (own s i)).central_values) h.means
  rw [hnamed, funext h.values] at hcenter
  rw [← hcenter]
  exact hmeans.symm

/-- An iteration in which a point moves is a step down. -/
theorem Recentered.descends (h : Recentered data s) (hmoved : (pass s).2 = false) :
    potential data (own (iteration s)) < potential data (own s) := by
  have hfirst : ∀ i, First (fun c => sqDist (s.clusters c).central_values (data i))
      (own (iteration s) i) := by
    intro i
    have hnearest := first_firstMin fun c =>
      sumOfSquares (s.clusters c).central_values (s.points i).values
    simp only [sumOfSquares_eq, h.values] at hnearest
    rw [own_iteration, getIDNearestCenter]
    simpa only [sumOfSquares_eq, h.values] using hnearest
  refine potential_lt (c := fun c => (s.clusters c).central_values) h.center_eq
    (fun i => (hfirst i).least _) (fun i htie => ?_) fun hsame => ?_
  · by_contra hlt
    exact absurd htie ((hfirst i).lowest _ (not_le.mp hlt)).ne
  · have hsettled : (pass s).2 = true := by
      refine pass_settled fun i => ?_
      rw [h.own_spec, ← own_iteration, hsame]
    rw [hmoved] at hsettled
    cases hsettled

/-! ## Whole runs -/

theorem Filed.recentered_iterate (h : Filed s) (hvalues : ∀ i, (s.points i).values = data i)
    (t : ℕ) : Recentered data (KMeans.iteration^[t + 1] s) := by
  induction t with
  | zero => exact h.recentered hvalues
  | succ t ih =>
    rw [iterate_succ_apply']
    exact ih.filed.recentered ih.values

/-- As many iterations as the points have ways to name clusters are enough. -/
theorem Filed.exists_settled (h : Filed s) (hvalues : ∀ i, (s.points i).values = data i) :
    ∃ t ≤ (k + 1) ^ n, (KMeans.pass (KMeans.iteration^[t] s)).2 = true := by
  by_contra hall
  push Not at hall
  have hcard := lt_card_of_descends (potential data)
    (fun t => own (KMeans.iteration^[t + 1] s)) (m := (k + 1) ^ n) fun t ht => by
      rw [iterate_succ_apply' _ (t + 1)]
      exact (h.recentered_iterate hvalues t).descends (Bool.eq_false_of_not_eq_true (hall _ ht))
  rw [Fintype.card_fun, Fintype.card_fin, Fintype.card_fin] at hcard
  exact lt_irrefl _ hcard

/-- A run ends with the first pass that moves nothing. -/
theorem iterations_settled {remaining t : ℕ} (hle : t ≤ remaining)
    (h : (pass (iteration^[t] s)).2 = true) :
    ∃ u, (iterations remaining s).getLast? = some (u, true) ∧
      (iterations remaining s).length ≤ t + 1 := by
  induction remaining generalizing s t with
  | zero =>
    obtain rfl := Nat.le_zero.mp hle
    exact ⟨iteration s, by rw [iterations, show (pass s).2 = true from h]; rfl, by simp [iterations]⟩
  | succ remaining ih =>
    rw [iterations]
    by_cases hs : (pass s).2 = true
    · rw [if_pos hs, hs]
      exact ⟨iteration s, rfl, by simp⟩
    · rw [if_neg hs]
      cases t with
      | zero => exact absurd h hs
      | succ t =>
        obtain ⟨u, hlast, hlength⟩ := ih (s := iteration s) (Nat.le_of_succ_le_succ hle) h
        refine ⟨u, ?_, by simpa using hlength⟩
        rw [List.getLast?_cons, hlast, Option.getD_some]

/-- **Termination.** Whatever the points and the draws, if the limit lies above the number
of ways to put the points into clusters, it is not the limit that ends the run: the last
iteration has moved no point and left the clusters converged. -/
theorem lloyd_terminates (hids : Injective ids) (hdraw : draw ids data draws = some s)
    {max_iterations : Int} (hmax : ((k + 1) ^ n : ℕ) < max_iterations) :
    ∃ u, (iterations (max_iterations - 1).toNat s).getLast? = some (u, true) ∧ Converged u ∧
      (iterations (max_iterations - 1).toNat s).length ≤ (k + 1) ^ n + 1 := by
  obtain ⟨starts, hdrawn⟩ := draw_spec hdraw
  have hfiled := hdrawn.filed hids
  obtain ⟨t, ht, hsettled⟩ := hfiled.exists_settled hdrawn.values
  have hle : t ≤ (max_iterations - 1).toNat := by omega
  obtain ⟨u, hlast, hlength⟩ := iterations_settled hle hsettled
  refine ⟨u, hlast, ?_, hlength.trans (Nat.succ_le_succ ht)⟩
  exact hfiled.iterations_converged hdrawn.recenter _ (List.mem_of_getLast? hlast)

/-- Four points in two clusters need at most seventeen iterations. -/
theorem lloyd_terminates_two_groups : ∃ s u, draw (k := 1) ![7, -3, 0, 5] twoGroups [0, 1] =
    some s ∧ (iterations 16 s).getLast? = some (u, true) ∧ Converged u := by
  have hrun : (draw (k := 1) ![7, -3, 0, 5] twoGroups [0, 1]).isSome = true := by
    decide +kernel
  obtain ⟨s, hs⟩ := Option.isSome_iff_exists.mp hrun
  have hmax : ((1 + 1) ^ 4 : ℕ) < (17 : Int) := by decide
  obtain ⟨u, hlast, hconverged, -⟩ := lloyd_terminates (by decide) hs hmax
  exact ⟨s, u, hs, hlast, hconverged⟩

end ConcurrentComputing.KMeans
