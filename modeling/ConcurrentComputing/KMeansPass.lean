import ConcurrentComputing.ParallelKMeans
import ConcurrentComputing.Runs

/-! # What an assignment pass does

Whatever finds the nearest centres, and however the bodies interleave: a complete
pass puts every point into the cluster of its nearest centre, and every cluster's
list holds its points, in some order. The serial loop is one such interleaving. -/

namespace ConcurrentComputing.KMeans

open Function Runs

variable {k d n : Nat}

/-- The points that a predicate picks. -/
def picked (points : Fin n → Point k d) (P : Fin n → Bool) : List (Point k d) :=
  ((List.finRange n).filter P).map points

variable {points points' : Fin n → Point k d} {P : Fin n → Bool} {l : List (Point k d)}
  {c : Cluster k d} {i : Fin n}

theorem picked_congr (h : ∀ i, P i = true → points i = points' i) :
    picked points P = picked points' P :=
  List.map_congr_left fun i hi => h i (List.mem_filter.mp hi).2

/-- One more point is picked. -/
theorem picked_insert (points : Fin n → Point k d) {P Q : Fin n → Bool} (hi : P i = false)
    (hi' : Q i = true) (h : ∀ j, j ≠ i → Q j = P j) :
    (picked points Q).Perm (points i :: picked points P) := by
  have hnodup : (i :: (List.finRange n).filter P).Nodup := by
    refine List.nodup_cons.mpr ⟨fun hmem => ?_, (List.nodup_finRange n).filter _⟩
    rw [(List.mem_filter.mp hmem).2] at hi
    cases hi
  refine List.Perm.map points ((List.perm_ext_iff_of_nodup ((List.nodup_finRange n).filter _)
    hnodup).mpr fun j => ?_)
  rw [List.mem_cons, List.mem_filter, List.mem_filter]
  by_cases hj : j = i
  · subst hj
    simp [hi']
  · simp [hj, h j hj]

/-- One point alone is picked. -/
theorem picked_one (points : Fin n → Point k d) (hi : P i = true) (h : ∀ j, j ≠ i → P j = false) :
    picked points P = [points i] := by
  have hinsert := picked_insert points (P := fun _ => false) rfl hi h
  have hnone : picked points (fun _ => false) = [] := by simp [picked]
  rw [hnone] at hinsert
  exact List.perm_singleton.mp hinsert

/-- Removal takes out the one copy of a point. -/
theorem removePoint_perm (hids : Injective fun i => (points i).id_point)
    (hl : c.points.Perm (points i :: picked points P)) :
    (c.removePoint (points i).id_point).points.Perm (picked points P) := by
  have hmem : points i ∈ c.points := hl.mem_iff.mpr List.mem_cons_self
  obtain ⟨a, l₁, l₂, _, ha, hsplit, herase⟩ := List.exists_of_eraseP
    (p := fun point => point.id_point = (points i).id_point) hmem (by simp)
  have hmem' : a ∈ points i :: picked points P := hl.mem_iff.mp (by rw [hsplit]; simp)
  have haeq : a = points i := by
    rcases List.mem_cons.mp hmem' with he | he
    · exact he
    · obtain ⟨j, _, rfl⟩ := List.mem_map.mp he
      rw [hids (of_decide_eq_true ha)]
  rw [Cluster.removePoint, herase]
  rw [hsplit, haeq] at hl
  exact (List.perm_middle.symm.trans hl).cons_inv

theorem addPoint_perm (point : Point k d) (hl : c.points.Perm l) :
    (c.addPoint point).points.Perm (point :: l) :=
  List.perm_append_comm.trans (List.Perm.cons point hl)

/-! ## One step -/

def Phase.isRemoved : Phase k → Bool
  | .removed _ => true
  | _ => false

def State.inCluster (s : State k d n) (c : Fin (k + 1)) (i : Fin n) : Bool :=
  decide ((s.points i).id_cluster = some c)

/-- A point is in the list of its cluster unless its body is between its two steps. -/
def Pass.lists (p : Pass k d n) (c : Fin (k + 1)) (i : Fin n) : Bool :=
  p.state.inCluster c i && !(p.phase i).isRemoved

/-- Every cluster's list holds its points, but for those between their two steps. -/
def Pass.Listed (p : Pass k d n) : Prop :=
  ∀ c, (p.state.clusters c).points.Perm (picked p.state.points (p.lists c))

/-- The point once its body is through. -/
def assigned (s : State k d n) (nearest : Fin n → Fin (k + 1)) (i : Fin n) : Point k d :=
  { s.points i with id_cluster := some (nearest i) }

/-- A pass that started in `s`, with the nearest centre of every point. -/
structure Pass.Inv (s : State k d n) (nearest : Fin n → Fin (k + 1)) (p : Pass k d n) : Prop where
  ids : ∀ i, (p.state.points i).id_point = i
  centers : ∀ c, (p.state.clusters c).central_values = (s.clusters c).central_values
  unfinished : ∀ i, p.phase i ≠ .finished → p.state.points i = s.points i
  removed : ∀ i c, p.phase i = .removed c →
    c = nearest i ∧ (s.points i).id_cluster ≠ some (nearest i)
  finished : ∀ i, p.phase i = .finished → p.state.points i = assigned s nearest i
  listed : ∀ c, (p.state.clusters c).points.Perm (picked p.state.points (p.lists c))
  done : p.done = true ↔
    ∀ i, p.phase i = .finished → (s.points i).id_cluster = some (nearest i)

/-- The centre that is found depends on the centres and the point only. -/
def Finds (find : (Fin (k + 1) → Cluster k d) → Point k d → Option (Fin (k + 1)))
    (s : State k d n) (nearest : Fin n → Fin (k + 1)) : Prop :=
  ∀ clusters, (∀ c, (clusters c).central_values = (s.clusters c).central_values) →
    ∀ i, find clusters (s.points i) = some (nearest i)

/-- Every cluster's list holds its points. -/
structure Partition (s : State k d n) : Prop where
  ids : ∀ i, (s.points i).id_point = i
  lists : ∀ c, (s.clusters c).points.Perm (picked s.points (s.inCluster c))

variable {s : State k d n} {nearest : Fin n → Fin (k + 1)} {p q : Pass k d n}
  {find : (Fin (k + 1) → Cluster k d) → Point k d → Option (Fin (k + 1))}

/-! ### The lists -/

/-- A point that is in no list goes to that of its cluster. -/
theorem Pass.Listed.move (h : p.Listed) (hunlisted : ∀ c, p.lists c i = false)
    (c : Fin (k + 1)) (done : Bool) :
    Pass.Listed ⟨p.state.move c i, update p.phase i .finished, done⟩ := by
  have hothers : ∀ c' j, j ≠ i →
      Pass.lists ⟨p.state.move c i, update p.phase i .finished, done⟩ c' j = p.lists c' j := by
    intro c' j hj
    simp only [Pass.lists, State.inCluster, State.move, update_of_ne hj]
  -- the point is in no list yet, so the lists do not see that it changes
  have hsame : ∀ c', picked p.state.points (p.lists c') =
      picked (p.state.move c i).points (p.lists c') := by
    intro c'
    refine picked_congr fun j hj => ?_
    have hji : j ≠ i := by
      rintro rfl
      rw [hunlisted] at hj
      cases hj
    simp only [State.move, update_of_ne hji]
  intro c'
  have hlist := h c'
  rw [hsame] at hlist
  by_cases hc : c' = c
  · subst hc
    have hinsert := picked_insert (p.state.move c' i).points (hunlisted c') (Q := Pass.lists
      ⟨p.state.move c' i, update p.phase i .finished, done⟩ c')
      (by simp [Pass.lists, State.inCluster, State.move, Phase.isRemoved]) (hothers c')
    have hadd := addPoint_perm { p.state.points i with id_cluster := some c' } hlist
    simpa [State.move] using hadd.trans (by simpa [State.move] using hinsert.symm)
  · have hpred : Pass.lists ⟨p.state.move c i, update p.phase i .finished, done⟩ c' =
        p.lists c' := by
      funext j
      by_cases hj : j = i
      · subst hj
        rw [hunlisted]
        simp [Pass.lists, State.inCluster, State.move, Ne.symm hc]
      · exact hothers c' j hj
    have hclusters : (p.state.move c i).clusters c' = p.state.clusters c' := update_of_ne hc _ _
    dsimp only
    rw [hclusters, hpred]
    exact hlist

/-- A point is taken out of the list of its cluster. -/
theorem Pass.Listed.remove (h : p.Listed) (hids : Injective fun i => (p.state.points i).id_point)
    {old c : Fin (k + 1)} (hphase : p.phase i = .start)
    (hcluster : (p.state.points i).id_cluster = some old) (done : Bool) :
    Pass.Listed ⟨p.state.remove old i, update p.phase i (.removed c), done⟩ := by
  have hothers : ∀ c', ∀ j, j ≠ i → p.lists c' j =
      Pass.lists ⟨p.state.remove old i, update p.phase i (.removed c), done⟩ c' j := by
    intro c' j hj
    simp only [Pass.lists, update_of_ne hj]
    rfl
  have hgone : ∀ c', Pass.lists
      ⟨p.state.remove old i, update p.phase i (.removed c), done⟩ c' i = false := by
    intro c'
    simp [Pass.lists, Phase.isRemoved]
  intro c'
  by_cases hc : c' = old
  · subst hc
    have hinsert := picked_insert p.state.points (hgone c') (Q := p.lists c')
      (by simp [Pass.lists, State.inCluster, hcluster, hphase, Phase.isRemoved]) (hothers c')
    have hlist := removePoint_perm hids ((h c').trans hinsert)
    simpa [State.remove] using hlist
  · have hpred : p.lists c' =
        Pass.lists ⟨p.state.remove old i, update p.phase i (.removed c), done⟩ c' := by
      funext j
      by_cases hj : j = i
      · rw [hj, hgone]
        simp [Pass.lists, State.inCluster, hcluster, Ne.symm hc]
      · exact hothers c' j hj
    have hclusters : (p.state.remove old i).clusters c' = p.state.clusters c' :=
      update_of_ne hc _ _
    change ((p.state.remove old i).clusters c').points.Perm (picked p.state.points _)
    rw [hclusters, ← hpred]
    exact h c'

theorem Pass.Listed.stay (h : p.Listed) (hphase : p.phase i = .start) (done : Bool) :
    Pass.Listed ⟨p.state, update p.phase i .finished, done⟩ := by
  intro c
  have hpred : Pass.lists ⟨p.state, update p.phase i .finished, done⟩ c = p.lists c := by
    funext j
    by_cases hj : j = i
    · subst hj
      simp [Pass.lists, hphase, Phase.isRemoved]
    · simp [Pass.lists, hj]
  rw [hpred]
  exact h c

/-- Before and after a pass the lists are whole. -/
theorem Pass.listed_iff (h : ∀ i, (p.phase i).isRemoved = false) :
    p.Listed ↔
      ∀ c, (p.state.clusters c).points.Perm (picked p.state.points (p.state.inCluster c)) := by
  have hlists : ∀ c, p.lists c = p.state.inCluster c := fun c =>
    funext fun i => by simp [Pass.lists, h i]
  simp only [Pass.Listed, hlists]

/-! ### The invariant of a pass -/

theorem Pass.Inv.injective (h : p.Inv s nearest) :
    Injective fun i => (p.state.points i).id_point := by
  intro i j hij
  simp only [h.ids] at hij
  exact Fin.ext (Int.ofNat_inj.mp hij)

theorem Pass.Inv.start (h : Partition s) : Pass.Inv s nearest (.start s) where
  ids := h.ids
  centers := fun _ => rfl
  unfinished := fun _ _ => rfl
  removed := nofun
  finished := nofun
  listed := (Pass.listed_iff fun _ => rfl).mpr h.lists
  done := iff_of_true rfl nofun

/-- Once a body has finished, those that have not are others. -/
theorem unfinished_others {phase : Fin n → Phase k} {j : Fin n}
    (h : update phase i .finished j ≠ .finished) : j ≠ i ∧ phase j ≠ .finished := by
  obtain rfl | hji := eq_or_ne j i
  · exact absurd (update_self j _ _) h
  · exact ⟨hji, fun he => h ((update_of_ne hji _ _).trans he)⟩

/-- The second step of a body, or its only one for a point without a cluster. -/
theorem Pass.Inv.move (h : p.Inv s nearest) (hphase : p.phase i ≠ .finished)
    (hold : (s.points i).id_cluster ≠ some (nearest i))
    (hunlisted : ∀ c, p.lists c i = false) :
    Pass.Inv s nearest ⟨p.state.move (nearest i) i, update p.phase i .finished, false⟩ := by
  have hpoint : { p.state.points i with id_cluster := some (nearest i) } = assigned s nearest i := by
    rw [h.unfinished i hphase, assigned]
  refine ⟨fun j => ?_, fun c => ?_, fun j hj => ?_, fun j c hj => ?_, fun j hj => ?_,
    Pass.Listed.move h.listed hunlisted _ _, ?_⟩
  · by_cases hj : j = i
    · subst hj
      simpa [State.move] using h.ids j
    · simpa [State.move, hj] using h.ids j
  · by_cases hc : c = nearest i
    · subst hc
      simpa [State.move, Cluster.addPoint] using h.centers (nearest i)
    · simpa [State.move, hc] using h.centers c
  · obtain ⟨hji, hj⟩ := unfinished_others hj
    simpa [State.move, hji] using h.unfinished j hj
  · obtain ⟨_, he⟩ | ⟨_, hj⟩ := update_cases hj
    · cases he
    · exact h.removed j c hj
  · obtain ⟨hji, _⟩ | ⟨hji, hj⟩ := update_cases hj
    · subst hji
      simpa [State.move] using hpoint
    · simpa [State.move, hji] using h.finished j hj
  · refine iff_of_false (by simp) fun hall => hold (hall i (update_self i _ _))

/-- The first step of a body that removes the point. -/
theorem Pass.Inv.remove (h : p.Inv s nearest) {old : Fin (k + 1)} (hphase : p.phase i = .start)
    (hcluster : (s.points i).id_cluster = some old) (hne : old ≠ nearest i) :
    Pass.Inv s nearest
      ⟨p.state.remove old i, update p.phase i (.removed (nearest i)), p.done⟩ := by
  have hpoint : p.state.points i = s.points i := h.unfinished i (by rw [hphase]; nofun)
  refine ⟨h.ids, fun c => ?_, fun j hj => ?_, fun j c hj => ?_, fun j hj => ?_,
    Pass.Listed.remove h.listed h.injective hphase (hpoint ▸ hcluster) _, ?_⟩
  · by_cases hc : c = old
    · subst hc
      simpa [State.remove, Cluster.removePoint] using h.centers c
    · simpa [State.remove, hc] using h.centers c
  · by_cases hji : j = i
    · rw [hji]
      exact hpoint
    · exact h.unfinished j fun he => hj ((update_of_ne hji _ _).trans he)
  · obtain ⟨hji, he⟩ | ⟨_, hj⟩ := update_cases hj
    · subst hji
      cases he
      exact ⟨rfl, fun he => hne (Option.some.inj (hcluster.symm.trans he))⟩
    · exact h.removed j c hj
  · obtain ⟨_, he⟩ | ⟨_, hj⟩ := update_cases hj
    · cases he
    · exact h.finished j hj
  · refine h.done.trans (forall_congr' fun j => ?_)
    by_cases hji : j = i
    · subst hji
      simp [hphase]
    · simp [hji]

/-- A body that finds the point where it belongs. -/
theorem Pass.Inv.stay (h : p.Inv s nearest) (hphase : p.phase i = .start)
    (hcluster : (s.points i).id_cluster = some (nearest i)) :
    Pass.Inv s nearest ⟨p.state, update p.phase i .finished, p.done⟩ := by
  have hpoint : p.state.points i = s.points i := h.unfinished i (by rw [hphase]; nofun)
  refine ⟨h.ids, h.centers, fun j hj => ?_, fun j c hj => ?_, fun j hj => ?_,
    Pass.Listed.stay h.listed hphase _, ?_⟩
  · exact h.unfinished j (unfinished_others hj).2
  · obtain ⟨_, he⟩ | ⟨_, hj⟩ := update_cases hj
    · cases he
    · exact h.removed j c hj
  · obtain ⟨hji, _⟩ | ⟨_, hj⟩ := update_cases hj
    · rw [hji, assigned, ← hcluster]
      exact hpoint
    · exact h.finished j hj
  · refine h.done.trans (forall_congr' fun j => ?_)
    by_cases hji : j = i
    · subst hji
      simp [hphase, hcluster]
    · simp [hji]

theorem Pass.Inv.step (h : p.Inv s nearest) (hfind : Finds find s nearest) (i : Fin n) :
    ∃ q, p.step find i = some q ∧ q.Inv s nearest := by
  unfold Pass.step
  cases hphase : p.phase i with
  | start =>
    have hpoint : p.state.points i = s.points i := h.unfinished i (by rw [hphase]; nofun)
    simp only [hpoint, hfind _ h.centers, Option.map_some]
    cases hcluster : (s.points i).id_cluster with
    | none =>
      refine ⟨_, rfl, h.move (by rw [hphase]; nofun) (by rw [hcluster]; nofun) fun c => ?_⟩
      simp [Pass.lists, State.inCluster, hpoint, hcluster]
    | some old =>
      by_cases hold : old = nearest i
      · simp only [if_pos hold]
        exact ⟨_, rfl, h.stay hphase (hold ▸ hcluster)⟩
      · simp only [if_neg hold]
        exact ⟨_, rfl, h.remove hphase hcluster hold⟩
  | removed c =>
    obtain ⟨rfl, hold⟩ := h.removed i c hphase
    refine ⟨_, rfl, h.move (by rw [hphase]; nofun) hold fun c => ?_⟩
    simp [Pass.lists, hphase, Phase.isRemoved]
  | finished => exact ⟨p, rfl, h⟩

/-! ## A whole pass -/

/-- The steps a body has left, at most. -/
def Phase.left : Phase k → Nat
  | .start => 2
  | .removed _ => 1
  | .finished => 0

theorem Pass.step_left (h : p.step find i = some q) :
    (q.phase i).left ≤ (p.phase i).left - 1 ∧ ∀ j, j ≠ i → q.phase j = p.phase j := by
  unfold Pass.step at h
  split at h
  · rename_i hphase
    obtain ⟨c, _, hq⟩ := Option.map_eq_some_iff.mp h
    rw [hphase]
    split at hq
    · subst hq
      simp +contextual [Phase.left]
    · split at hq <;> subst hq <;> simp +contextual [Phase.left]
  · cases h
    simp +contextual [Phase.left]
  · rename_i hphase
    cases h
    simp [hphase, Phase.left]

theorem Pass.run_left {schedule : List (Fin n)}
    (h : schedule.foldlM (Pass.step find) p = some q) (i : Fin n) :
    (q.phase i).left ≤ (p.phase i).left - schedule.count i := by
  induction schedule generalizing p with
  | nil =>
    cases h
    rw [List.count_nil, Nat.sub_zero]
  | cons j schedule ih =>
    rw [List.foldlM_cons] at h
    obtain ⟨r, hr, hrest⟩ := Option.bind_eq_some_iff.mp h
    obtain ⟨hleft, hsame⟩ := Pass.step_left hr
    have hi := ih hrest
    by_cases hij : i = j
    · subst hij
      rw [List.count_cons_self]
      omega
    · rw [hsame i hij] at hi
      rwa [List.count_cons_of_ne (Ne.symm hij)]

/-- In an interleaving every body gets through. -/
theorem finished_of_complete {schedule : List (Fin n)} (hcomplete : Complete schedule)
    (h : schedule.foldlM (Pass.step find) (.start s) = some q) (i : Fin n) :
    q.phase i = .finished := by
  have hleft : (q.phase i).left ≤ 2 - schedule.count i := Pass.run_left h i
  have htwice := hcomplete i
  cases hphase : q.phase i with
  | finished => rfl
  | start =>
    rw [hphase, Phase.left] at hleft
    omega
  | removed c =>
    rw [hphase, Phase.left] at hleft
    omega

theorem Pass.Inv.run (h : p.Inv s nearest) (hfind : Finds find s nearest)
    (schedule : List (Fin n)) :
    ∃ q, schedule.foldlM (Pass.step find) p = some q ∧ q.Inv s nearest := by
  induction schedule generalizing p with
  | nil => exact ⟨p, rfl, h⟩
  | cons i schedule ih =>
    obtain ⟨q, hq, hinv⟩ := h.step hfind i
    obtain ⟨r, hr, hrinv⟩ := ih hinv
    exact ⟨r, by rw [List.foldlM_cons, hq]; exact hr, hrinv⟩

/-- What a complete pass leaves. -/
structure Assigned (s : State k d n) (nearest : Fin n → Fin (k + 1)) (t : State k d n)
    (done : Bool) : Prop where
  points : t.points = assigned s nearest
  centers : ∀ c, (t.clusters c).central_values = (s.clusters c).central_values
  partition : Partition t
  done : done = true ↔ ∀ i, (s.points i).id_cluster = some (nearest i)

theorem pass_spec (h : Partition s) (hfind : Finds find s nearest) {schedule : List (Fin n)}
    (hcomplete : Complete schedule) : ∃ q, schedule.foldlM (Pass.step find) (.start s) = some q ∧
      Assigned s nearest q.state q.done := by
  obtain ⟨q, hq, hinv⟩ := (Pass.Inv.start h).run hfind schedule
  have hfinished := finished_of_complete hcomplete hq
  have hwhole : ∀ i, (q.phase i).isRemoved = false := fun i => by rw [hfinished i]; rfl
  exact ⟨q, hq, funext fun i => hinv.finished i (hfinished i), hinv.centers,
    ⟨hinv.ids, (Pass.listed_iff hwhole).mp hinv.listed⟩,
    hinv.done.trans (forall_congr' fun i => imp_iff_right (hfinished i))⟩

/-! ## The serial loop -/

def serialFind (clusters : Fin (k + 1) → Cluster k d) (point : Point k d) : Option (Fin (k + 1)) :=
  some (getIDNearestCenter clusters point)

/-- The serial body is the two steps of the parallel one. -/
theorem reassign_eq (hphase : p.phase i = .start) :
    ∃ phase, [i, i].foldlM (Pass.step serialFind) p =
      some ⟨(reassign (p.state, p.done) i).1, phase, (reassign (p.state, p.done) i).2⟩ ∧
        ∀ j, j ≠ i → phase j = p.phase j := by
  have hsecond : ∀ q : Pass k d n, q.phase i = .finished → q.step serialFind i = some q := by
    intro q hq
    unfold Pass.step
    rw [hq]
  simp only [List.foldlM_cons, List.foldlM_nil, Option.bind_eq_bind]
  cases hcluster : (p.state.points i).id_cluster with
  | none =>
    have hfirst : p.step serialFind i = some
        ⟨p.state.move (getIDNearestCenter p.state.clusters (p.state.points i)) i,
          update p.phase i .finished, false⟩ := by
      simp only [Pass.step, hphase, serialFind, Option.map_some, hcluster]
    rw [hfirst, Option.bind_some, hsecond _ (update_self _ _ _)]
    refine ⟨update p.phase i .finished, ?_, fun j hj => update_of_ne hj _ _⟩
    simp [reassign, hcluster]
  | some old =>
    by_cases hold : old = getIDNearestCenter p.state.clusters (p.state.points i)
    · have hfirst : p.step serialFind i =
          some ⟨p.state, update p.phase i .finished, p.done⟩ := by
        simp only [Pass.step, hphase, serialFind, Option.map_some, hcluster, if_pos hold]
      rw [hfirst, Option.bind_some, hsecond _ (update_self _ _ _)]
      refine ⟨update p.phase i .finished, ?_, fun j hj => update_of_ne hj _ _⟩
      simp [reassign, hcluster, ← hold]
    · have hfirst : p.step serialFind i = some ⟨p.state.remove old i, update p.phase i
          (.removed (getIDNearestCenter p.state.clusters (p.state.points i))), p.done⟩ := by
        simp only [Pass.step, hphase, serialFind, Option.map_some, hcluster, if_neg hold]
      rw [hfirst, Option.bind_some]
      refine ⟨update p.phase i .finished, ?_, fun j hj => update_of_ne hj _ _⟩
      simp [Pass.step, reassign, hcluster, hold]

theorem serial_eq (l : List (Fin n)) (hnodup : l.Nodup) (hphase : ∀ i ∈ l, p.phase i = .start) :
    ∃ phase, (l.flatMap fun i => [i, i]).foldlM (Pass.step serialFind) p =
      some ⟨(l.foldl reassign (p.state, p.done)).1, phase,
        (l.foldl reassign (p.state, p.done)).2⟩ := by
  induction l generalizing p with
  | nil => exact ⟨p.phase, rfl⟩
  | cons i l ih =>
    obtain ⟨hi, hnodup⟩ := List.nodup_cons.mp hnodup
    obtain ⟨phase, hstep, hsame⟩ := reassign_eq (hphase i List.mem_cons_self)
    obtain ⟨phase', hrest⟩ := ih (p := ⟨_, phase, _⟩) hnodup fun j hj => by
      have hji : j ≠ i := by
        rintro rfl
        exact hi hj
      exact (hsame j hji).trans (hphase j (List.mem_cons_of_mem _ hj))
    refine ⟨phase', ?_⟩
    rw [List.flatMap_cons, List.foldlM_append, hstep]
    exact hrest

theorem serial_complete : Complete ((List.finRange n).flatMap fun i => [i, i]) := by
  intro i
  have hmem : ∀ l : List (Fin n), i ∈ l → 2 ≤ (l.flatMap fun i => [i, i]).count i := by
    intro l hl
    induction l with
    | nil => cases hl
    | cons j l ih =>
      rw [List.flatMap_cons, List.count_append]
      rcases List.mem_cons.mp hl with rfl | hl
      · simp
      · exact (ih hl).trans (Nat.le_add_left _ _)
  exact hmem _ (List.mem_finRange i)

theorem serial_pass_spec (h : Partition s) :
    Assigned s (fun i => getIDNearestCenter s.clusters (s.points i)) (pass s).1 (pass s).2 := by
  have hfind : Finds serialFind s fun i => getIDNearestCenter s.clusters (s.points i) := by
    intro clusters hcenters i
    simp only [serialFind, getIDNearestCenter, hcenters]
  obtain ⟨q, hq, hassigned⟩ := pass_spec h hfind serial_complete
  obtain ⟨phase, hserial⟩ := serial_eq (p := .start s) (List.finRange n) (List.nodup_finRange n)
    fun _ _ => rfl
  cases hserial.symm.trans hq
  exact hassigned

end ConcurrentComputing.KMeans
