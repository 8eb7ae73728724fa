import ConcurrentComputing.KMeansPass

/-! # When the parallel program computes what the serial one does

The parallel program truncates differences and sums to `int`. It agrees with the
serial one as long as that changes no choice of a nearest centre and no centre. -/

namespace ConcurrentComputing.KMeans

open Function TruncatedSum FirstMinimum

variable {k d n : Nat}

/-- The sum of the squares of the truncated differences. -/
def truncatedSum (center point : Fin d → ℚ) : ℚ :=
  (List.finRange d).foldl (fun sum j =>
    sum + ((trunc (center j - point j) * trunc (center j - point j) : Int) : ℚ)) 0

/-- For every point the differences fit into an `int` with their squares, and the
first of the nearest centres is that by the truncated differences, too. -/
structure Comparable (s : State k d n) : Prop where
  fits : ∀ i c j, intMin ≤ trunc ((s.clusters c).central_values j - (s.points i).values j) ∧
    trunc ((s.clusters c).central_values j - (s.points i).values j) ≤ intMax ∧
    trunc ((s.clusters c).central_values j - (s.points i).values j) *
      trunc ((s.clusters c).central_values j - (s.points i).values j) ≤ intMax
  nearest : ∀ i c,
    First (fun c => sumOfSquares (s.clusters c).central_values (s.points i).values) c →
      First (fun c => truncatedSum (s.clusters c).central_values (s.points i).values) c

/-- The values of the points of a cluster. -/
def coordinates (s : State k d n) (c : Fin (k + 1)) (j : Fin d) : List ℚ :=
  (picked s.points (s.inCluster c)).map fun point => point.values j

/-- For every cluster that has points their sum cannot leave the `int`s, and their
mean is zero, or it is an integer and they all are. -/
def Addable (s : State k d n) : Prop :=
  ∀ c j, coordinates s c j ≠ [] → (intMin : ℚ) ≤ negative (coordinates s c j) ∧
    positive (coordinates s c j) ≤ intMax ∧ ExactMean (coordinates s c j)

/-- In every iteration of the serial run, with the iterations left after this one. -/
def Exact : Nat → State k d n → Prop
  | 0, s => Comparable s ∧ Addable (pass s).1
  | remaining + 1, s => Comparable s ∧ Addable (pass s).1 ∧
    ((pass s).2 = false → Exact remaining (recenter (pass s).1))

instance (s : State k d n) : Decidable (Comparable s) :=
  decidable_of_iff (_ ∧ _) ⟨fun h => ⟨h.1, h.2⟩, fun h => ⟨h.fits, h.nearest⟩⟩

instance (s : State k d n) : Decidable (Addable s) := by
  unfold Addable
  infer_instance

instance decidableExact : ∀ (remaining : Nat) (s : State k d n), Decidable (Exact remaining s)
  | 0, _ => instDecidableAnd
  | remaining + 1, s =>
    have := decidableExact remaining (recenter (pass s).1)
    instDecidableAnd

/-- Whatever the order of the parallel loops, the outcome is that of the serial run. -/
def Agrees (data : Fin n → Fin d → ℚ) (starts : Fin (k + 1) → Fin n) (max_iterations : Int) :
    Prop :=
  ∀ choices : Nat → Parallel.Choice k d n, (∀ t, Complete (choices t).schedule) →
    Parallel.run data starts max_iterations choices = some (run data starts max_iterations)

/-! ## The nearest centre -/

theorem Parallel.sumOfSquares_eq {center point : Fin d → ℚ}
    (h : ∀ j, intMin ≤ trunc (center j - point j) ∧ trunc (center j - point j) ≤ intMax ∧
      trunc (center j - point j) * trunc (center j - point j) ≤ intMax) :
    Parallel.sumOfSquares center point = some (truncatedSum center point) := by
  have hloop : ∀ (l : List (Fin d)) (sum : ℚ), l.foldlM (fun sum j => do
      let val ← toInt (center j - point j)
      let square ← checked intMin intMax (val * val)
      return sum + square) sum = some (l.foldl (fun sum j =>
        sum + ((trunc (center j - point j) * trunc (center j - point j) : Int) : ℚ)) sum) := by
    intro l
    induction l with
    | nil => exact fun _ => rfl
    | cons j l ih =>
      intro sum
      obtain ⟨hlo, hhi, hsquare⟩ := h j
      have hpos : intMin ≤ trunc (center j - point j) * trunc (center j - point j) :=
        (show intMin ≤ 0 by decide).trans (mul_self_nonneg _)
      rw [List.foldlM_cons, toInt, checked_eq hlo hhi]
      simp only [Option.bind_eq_bind, Option.bind_some, checked_eq hpos hsquare]
      exact ih _
  exact hloop _ 0

theorem Parallel.nearestLoop_eq {sums : Fin (k + 1) → Option ℚ} {f : Fin (k + 1) → ℚ}
    (h : ∀ c, sums c = some (f c)) (best : Fin (k + 1)) (rest : List (Fin (k + 1))) :
    Parallel.nearestLoop sums best (f best) rest = some (firstMin f best rest) := by
  induction rest generalizing best with
  | nil => rfl
  | cons c rest ih =>
    rw [Parallel.nearestLoop, h c, Option.bind_some, firstMin]
    split
    · exact ih c
    · exact ih best

variable {s p : State k d n} {c : Fin (k + 1)}

theorem Comparable.finds (h : Comparable s) : Finds Parallel.getIDNearestCenter s
    fun i => getIDNearestCenter s.clusters (s.points i) := by
  intro clusters hcenters i
  have hsums : ∀ c, Parallel.sumOfSquares (clusters c).central_values (s.points i).values =
      some (truncatedSum (s.clusters c).central_values (s.points i).values) := by
    intro c
    rw [hcenters]
    exact Parallel.sumOfSquares_eq (h.fits i c)
  have hloop := Parallel.nearestLoop_eq hsums 0 (List.finRange (k + 1)).tail
  have hfirst := (first_firstMin fun c =>
    truncatedSum (s.clusters c).central_values (s.points i).values).unique
      (h.nearest i _ (first_firstMin _))
  simp only [Parallel.getIDNearestCenter, hsums 0, Option.bind_some]
  rw [hloop, hfirst]
  rfl

/-! ## The centres -/

theorem perm_values {l l' : List (Point k d)} (h : l.Perm l') (j : Fin d) :
    (l.map fun point => point.values j).Perm (l'.map fun point => point.values j) := h.map _

theorem exactMean_perm {vs ws : List ℚ} (h : vs.Perm ws) (he : ExactMean vs) : ExactMean ws := by
  unfold ExactMean Integers at *
  simp only [h.sum_eq, h.length_eq, h.mem_iff] at he
  exact he

/-- The new centre of the points of a cluster. -/
def meanOf (s : State k d n) (c : Fin (k + 1)) : Fin d → ℚ :=
  if picked s.points (s.inCluster c) = [] then (s.clusters c).central_values
  else fun j => (coordinates s c j).sum / (picked s.points (s.inCluster c)).length

theorem foldl_add {α : Type*} (f : α → ℚ) (l : List α) (sum : ℚ) :
    l.foldl (fun sum a => sum + f a) sum = sum + (l.map f).sum := by
  induction l generalizing sum with
  | nil => simp
  | cons a l ih =>
    rw [List.foldl_cons, ih, List.map_cons, List.sum_cons]
    ring

theorem center_eq (hperm : (s.clusters c).points.Perm (picked s.points (s.inCluster c))) :
    center (s.clusters c) = meanOf s c := by
  unfold center meanOf
  by_cases hnil : picked s.points (s.inCluster c) = []
  · rw [if_pos hnil, if_pos (List.perm_nil.mp (hnil ▸ hperm))]
  · have hne : (s.clusters c).points ≠ [] := fun he => hnil (List.perm_nil.mp (he ▸ hperm.symm))
    rw [if_neg hnil, if_neg hne]
    funext j
    rw [foldl_add, zero_add, (perm_values hperm j).sum_eq, hperm.length_eq, coordinates]

theorem Parallel.center_eq (h : Partition s) (ha : Addable s) (split : Fin d → Split)
    (c : Fin (k + 1)) : Parallel.center split (s.clusters c) = some (meanOf s c) := by
  have hperm := h.lists c
  unfold Parallel.center meanOf
  by_cases hnil : picked s.points (s.inCluster c) = []
  · rw [if_pos hnil, if_pos (List.perm_nil.mp (hnil ▸ hperm))]
  · have hne : (s.clusters c).points ≠ [] := fun he => hnil (List.perm_nil.mp (he ▸ hperm.symm))
    have hmean : ∀ j, Parallel.mean (split j) (s.clusters c).points j =
        some ((coordinates s c j).sum / (picked s.points (s.inCluster c)).length) := by
      intro j
      have hvalues := perm_values hperm j
      obtain ⟨hlo, hhi, hexact⟩ := ha c j (by simpa [coordinates] using hnil)
      have hneg : negative ((s.clusters c).points.map fun point => point.values j) =
          negative (coordinates s c j) := (hvalues.map _).sum_eq
      have hpos : positive ((s.clusters c).points.map fun point => point.values j) =
          positive (coordinates s c j) := (hvalues.map _).sum_eq
      obtain ⟨total, heval, hnear⟩ : ∃ total, (split j).eval intMin intMax 0
          ((s.clusters c).points.map fun point => point.values j) = some total ∧
          Near 0 0 0 ((s.clusters c).points.map fun point => point.values j) total :=
        (split j).eval_spec _ le_rfl le_rfl (by simp) (by simp) (by rwa [hneg, zero_add])
          (by rwa [hpos, zero_add])
      have hdiv := mean_eq (by simpa using hne) (exactMean_perm hvalues.symm hexact) hnear
      rw [List.length_map] at hdiv
      rw [Parallel.mean, heval, Option.map_some, hdiv, hvalues.sum_eq, hperm.length_eq, coordinates]
    rw [if_neg hnil, if_neg hne, dif_pos fun j => by rw [hmean j]; rfl]
    simp only [hmean, Option.get_some]

theorem Parallel.recenter_eq (h : Partition s) (ha : Addable s)
    (split : Fin (k + 1) → Fin d → Split) :
    Parallel.recenter split s = some (KMeans.recenter s) := by
  have hcenter : ∀ c, Parallel.center (split c) (s.clusters c) =
      some (KMeans.center (s.clusters c)) := fun c =>
    (Parallel.center_eq h ha (split c) c).trans (congrArg some (KMeans.center_eq (h.lists c)).symm)
  rw [Parallel.recenter, dif_pos fun c => by rw [hcenter c]; rfl]
  simp only [hcenter, Option.get_some, KMeans.recenter]

/-! ## Whole runs -/

/-- Two states that differ in the order of the clusters' lists at most. -/
structure Same (s p : State k d n) : Prop where
  points : p.points = s.points
  centers : ∀ c, (p.clusters c).central_values = (s.clusters c).central_values
  serial : Partition s
  parallel : Partition p

theorem Same.inCluster (h : Same s p) : p.inCluster = s.inCluster := by
  funext c i
  simp only [State.inCluster]
  rw [decide_eq_decide, h.points]

theorem Partition.recenter (h : Partition s) : Partition (recenter s) := ⟨h.ids, h.lists⟩

theorem Same.recenter (h : Same s p) : Same (recenter s) (recenter p) where
  points := h.points
  centers := fun c => by
    change center (p.clusters c) = center (s.clusters c)
    rw [center_eq (h.parallel.lists c), center_eq (h.serial.lists c)]
    simp only [meanOf, coordinates, h.inCluster, h.points, h.centers]
  serial := h.serial.recenter
  parallel := h.parallel.recenter

theorem Same.outcome (h : Same s p) (iter : Nat) : outcome p iter = outcome s iter := by
  simp only [KMeans.outcome, h.points, h.centers]

theorem Same.addable (h : Same s p) (ha : Addable s) : Addable p := by
  intro c j
  have hsame : coordinates p c j = coordinates s c j := by
    simp only [coordinates, h.inCluster, h.points]
  rw [hsame]
  exact ha c j

/-- The passes of the two programs from such states. -/
theorem Same.pass (h : Same s p) (hc : Comparable s) {schedule : List (Fin n)}
    (hcomplete : Complete schedule) : ∃ q, Parallel.pass schedule p = some q ∧
      Same (pass s).1 q.state ∧ q.done = (pass s).2 := by
  have hfinds : Finds Parallel.getIDNearestCenter p
      fun i => getIDNearestCenter s.clusters (s.points i) := by
    intro clusters hcenters i
    rw [h.points]
    exact hc.finds clusters (fun c => (hcenters c).trans (h.centers c)) i
  obtain ⟨q, hq, hparallel⟩ := pass_spec h.parallel hfinds hcomplete
  have hserial := serial_pass_spec h.serial
  refine ⟨q, hq, ⟨?_, fun c => ?_, hserial.partition, hparallel.partition⟩, ?_⟩
  · rw [hparallel.points, hserial.points]
    funext i
    simp only [assigned, h.points]
  · rw [hparallel.centers, hserial.centers, h.centers]
  · rw [Bool.eq_iff_iff, hparallel.done, hserial.done, h.points]

theorem Same.iteration (h : Same s p) (hc : Comparable s) (ha : Addable (KMeans.pass s).1)
    {choice : Parallel.Choice k d n} (hcomplete : Complete choice.schedule) :
    ∃ q, Parallel.iteration choice p = some (q, (KMeans.pass s).2) ∧
      Same (KMeans.recenter (KMeans.pass s).1) q := by
  obtain ⟨q, hq, hsame, hdone⟩ := h.pass hc hcomplete
  refine ⟨KMeans.recenter q.state, ?_, hsame.recenter⟩
  rw [Parallel.iteration, hq, Option.bind_some,
    Parallel.recenter_eq hsame.parallel (hsame.addable ha), Option.map_some, hdone]

theorem Same.loop {choices : Nat → Parallel.Choice k d n}
    (hchoices : ∀ t, Complete (choices t).schedule) (iter : Nat) (h : Same s p) {remaining : Nat}
    (he : Exact remaining s) :
    Parallel.loop choices iter remaining p = some (KMeans.loop iter remaining s) := by
  induction remaining generalizing iter s p with
  | zero =>
    obtain ⟨hc, ha⟩ := he
    obtain ⟨q, hq, hsame⟩ := h.iteration hc ha (hchoices iter)
    rw [Parallel.loop, KMeans.loop, hq, Option.map_some, hsame.outcome]
  | succ remaining ih =>
    obtain ⟨hc, ha, hrest⟩ := he
    obtain ⟨q, hq, hsame⟩ := h.iteration hc ha (hchoices iter)
    rw [Parallel.loop, KMeans.loop, hq, Option.bind_some]
    dsimp only
    split
    · rw [hsame.outcome]
    · rename_i hd
      exact ih (iter + 1) hsame (hrest (Bool.not_eq_true _ ▸ hd))

/-- At the start every starting point is in the list of its cluster. -/
theorem Partition.start {data : Fin n → Fin d → ℚ} {starts : Fin (k + 1) → Fin n}
    (hs : Injective starts) : Partition (.start data starts) where
  ids := fun _ => rfl
  lists := fun c => by
    have hcluster : ∀ i, ((List.finRange (k + 1)).find? fun c => starts c = i) = some c ↔
        starts c = i := by
      intro i
      constructor
      · intro hfind
        simpa using List.find?_some hfind
      · rintro rfl
        cases hfind : (List.finRange (k + 1)).find? fun c' => starts c' = starts c with
        | none =>
          have hnone := List.find?_eq_none.mp hfind c (List.mem_finRange c)
          simp at hnone
        | some c' =>
          have heq : starts c' = starts c := by simpa using List.find?_some hfind
          rw [hs heq]
    have hpoint : (State.start data starts).points (starts c) =
        ⟨starts c, some c, data (starts c)⟩ := by
      simp only [State.start, (hcluster (starts c)).mpr rfl]
    have hpicked := picked_one (State.start data starts).points
      (P := (State.start data starts).inCluster c) (i := starts c)
      (decide_eq_true ((hcluster (starts c)).mpr rfl)) fun j hj =>
        decide_eq_false fun h => hj ((hcluster j).mp h).symm
    rw [hpicked, hpoint]
    exact .refl _

/-- **Agreement.** For any points and starting points: if in every iteration of the
serial run the truncation changes neither a nearest centre nor a centre, and no
`int` overflows, then the parallel program ends with the same clusters, the same
centres and the same number of iterations, in whatever order its loops run. -/
theorem parallel_agrees {data : Fin n → Fin d → ℚ} {starts : Fin (k + 1) → Fin n}
    (hs : Injective starts) {max_iterations : Int}
    (he : Exact (max_iterations - 1).toNat (.start data starts)) :
    Agrees data starts max_iterations := by
  intro choices hchoices
  have hstart : Partition (.start data starts) := Partition.start hs
  exact Same.loop hchoices 1 ⟨rfl, fun _ => rfl, hstart, hstart⟩ he

/-- Two groups of two points, with their first points to start from. -/
def twoGroups : Fin 4 → Fin 1 → ℚ := ![![0], ![2], ![10], ![12]]

theorem parallel_agrees_two_groups : Agrees (k := 1) twoGroups ![0, 2] 10 ∧
    (run (k := 1) twoGroups ![0, 2] 10).centers = ![![1], ![11]] ∧
    (run (k := 1) twoGroups ![0, 2] 10).iterations = 2 := by
  refine ⟨parallel_agrees (by decide) (by decide +kernel), ?_, ?_⟩
  · decide +kernel
  · decide +kernel

/-- One cluster of the one-dimensional points 1 and 2: its centre is 3/2, and 1 in parallel. -/
theorem odd_sum_truncated : ¬ Agrees (k := 0) (d := 1) (n := 2) (fun i _ => i.val + 1) ![0] 1 := by
  intro h
  have hcomplete : Complete (n := 2) [0, 0, 1, 1] := by
    unfold Complete
    decide
  have hrun := h (fun _ => ⟨[0, 0, 1, 1], fun _ _ => .leaf⟩) fun _ => hcomplete
  have hcenter := congrArg (Option.map fun o => o.centers 0 0) hrun
  revert hcenter
  decide +kernel

end ConcurrentComputing.KMeans
