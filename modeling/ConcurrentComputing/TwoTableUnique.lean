import ConcurrentComputing.TwoTableThreads

/-! # One slot per value

`insert` looks for its value in its first section only. When both buckets are
full it drops the locks, and whoever inserts the same value before the locks are
taken again is not seen. Values stay in one slot each exactly as long as every
insert that comes back from its search to write still misses its value. -/

namespace ConcurrentComputing.TwoTable.Threads

open CuckooPath Placement Runs Cuckoo Function

variable {ι : Type} [DecidableEq ι] {s s' s₀ : State ι} {c : Cuckoo}

instance (c : Cuckoo) (val : Val) (idx1 idx2 : Nat) : Decidable (c.Missing val idx1 idx2) := by
  unfold Missing
  infer_instance

/-- The section that follows the search goes through to the write. -/
def Writes (c : Cuckoo) : List Hop → Bool
  | [hop] => !Table.isOccupied (c.view hop.table hop.index hop.slot)
  | [dst, src] => (c.displace dst src).isSome
  | _ => false

/-- The condition on a step: when it is the write of an insert that has dropped
its locks for the search, both its buckets still miss the value. -/
def Fresh (s : State ι) (e : Event ι) : Prop :=
  match e with
  | .next t _ =>
    match s.pc t with
    | .displace l path => Writes s.cuckoo path = true → s.cuckoo.Missing l.val l.idx1 l.idx2
    | _ => True
  | _ => True

instance (s : State ι) (e : Event ι) : Decidable (Fresh s e) := by
  unfold Fresh
  repeat' split
  all_goals infer_instance

/-- In a well-placed table the two buckets of a call miss its value exactly when
no slot at all holds it. -/
theorem missing_iff (hc : c.WellPlaced) {l : Locals} (hl : l.Valid c.buckets) :
    c.Missing l.val l.idx1 l.idx2 ↔ l.val ∉ stored c.content := by
  rw [hl.one, hl.two]
  refine ⟨hc.not_stored, fun hn i hi => ⟨fun he => hn ?_, fun he => hn ?_⟩⟩
  · exact ⟨_, content_eq_some.mpr ⟨hash_lt hc.pos _ .one, hi, he, hl.nonzero⟩⟩
  · exact ⟨_, content_eq_some.mpr ⟨hash_lt hc.pos _ .two, hi, he, hl.nonzero⟩⟩

theorem displaceNext_writes {t : ι} {l : Locals} {path : List Hop}
    (h : s.displaceNext t l path = some s') :
    s'.log = s.log ++ [(.insert l.val, true)] ↔ Writes s.cuckoo path = true := by
  match path, h with
  | [hop], h =>
    cases h
    unfold claim Writes
    split <;> simp_all [State.settle, State.finish, State.goto]
  | dst :: src :: path, h =>
    simp only [State.displaceNext] at h
    cases hd : s.cuckoo.displace dst src with
    | none =>
      rw [hd] at h
      cases h
      cases path <;> simp [State.settle, State.goto, Writes, hd]
    | some d =>
      rw [hd] at h
      dsimp only at h
      cases path with
      | nil => cases h; simp [State.settle, State.finish, Writes, hd]
      | cons hop path => cases h; simp [State.goto, Writes]

/-- A step is fresh exactly when the value it writes, if any, is stored nowhere. -/
theorem fresh_iff {e : Event ι} (hi : Inv s) (hv : e.val ≠ some 0) (h : step s e = some s') :
    Fresh s e ↔ ∀ v, s'.log = s.log ++ [(.insert v, true)] → v ∉ stored s.cuckoo.content := by
  cases e with
  | insert t val =>
    simp only [step] at h
    split at h
    · cases h; simp [Fresh, State.goto]
    · cases h
  | remove t val =>
    simp only [step] at h
    split at h
    · cases h; simp [Fresh, State.finish]
    · cases h
  | contains t val =>
    simp only [step] at h
    split at h
    · cases h; simp [Fresh, State.finish]
    · cases h
  | next t choice =>
    have hpc := hi.valid t
    simp only [step] at h
    simp only [Fresh]
    split at h
    · cases h
    · cases h
    · rename_i l heq
      rw [heq] at hpc ⊢
      rcases firstCheck_spec s.cuckoo l.val l.idx1 l.idx2 with ⟨hf, _⟩ |
        ⟨side, idx, slot, hf, hm, _⟩ | ⟨hf, _⟩ <;> rw [hf] at h <;> cases h
      · simp [State.settle, State.finish]
      · have hn := (missing_iff hi.toWellPlaced hpc).mp hm
        simp [State.settle, State.finish, hn]
      · simp [State.goto]
    · rename_i l heq
      rw [heq]
      split at h <;> cases h <;> simp [State.settle, State.goto]
    · rename_i l path heq
      rw [heq] at hpc ⊢
      obtain ⟨new, hs, hnew⟩ := displaceNext_stepped hi hpc.1 hpc.2 h
      dsimp only
      rw [missing_iff hi.toWellPlaced hpc.1, ← displaceNext_writes h]
      refine ⟨fun hf v hlog => ?_, fun hf hlog => hf _ hlog⟩
      have hmem : (Op.insert v, true) ∈ new := by
        rw [hs.log] at hlog
        rw [List.append_cancel_left hlog]
        simp
      have hval : v = l.val := by simpa using hnew _ hmem
      subst hval
      exact hf hlog

/-- After a step from a table without duplicates there are still none exactly
when the step is fresh. -/
theorem step_unique_iff {e : Event ι} (hi : Inv s) (hu : Unique id s.cuckoo.content)
    (hv : e.val ≠ some 0) (h : step s e = some s') :
    Unique id s'.cuckoo.content ↔ Fresh s e := by
  rw [fresh_iff hi hv h]
  obtain ⟨new, hst⟩ := step_stepped hi hv h
  have hnew : ∀ v, s'.log = s.log ++ [(.insert v, true)] ↔ new = [(.insert v, true)] := by
    intro v
    rw [hst.log, List.append_cancel_left_eq]
  simp only [hnew]
  cases hst.effect with
  | moved hm => simp [hm.unique hu]
  | refused op _ hc => simp [hc, hu]
  | looked v hc => simp [hc, hu]
  | removed _ hc => simp [hc, hu.erase]
  | @wrote d cell v hm hd _ hc =>
    rw [hc]
    refine ⟨fun hu' w hw => ?_, fun hf => ?_⟩
    · cases hw
      rw [← hm.stored_eq]
      rintro ⟨q, hq⟩
      have hne : q ≠ cell := fun he => by rw [he, hd] at hq; cases hq
      exact hne (hu' q cell v v (by rw [update_of_ne hne, hq]) (by simp) rfl)
    · refine (hm.unique hu).put fun q b hb (he : b = v) => ?_
      have hn := hf v rfl
      rw [← hm.stored_eq] at hn
      exact absurd ⟨q, he ▸ hb⟩ hn

theorem run_unique_iff {es : List (Event ι)} (hi : Inv s₀) (hu : Unique id s₀.cuckoo.content)
    (hv : Nonzero es) (h : exec step s₀ es = some s) :
    (∀ k u, exec step s₀ (es.take k) = some u → Unique id u.cuckoo.content) ↔
      Meets step Fresh s₀ es := by
  refine prefixes_iff_meets (fun u e w hve hiu hu hs => ?_) hi hu hv h
  obtain ⟨_, hst⟩ := step_stepped hiu hve hs
  exact ⟨hst.inv, step_unique_iff hiu hu hve hs⟩

/-! ## What a remove leaves behind -/

/-- A remove of `v` has answered true and no insert of `v` has written since. -/
def Gone (v : Val) (log : List (Op × Bool)) : Prop :=
  ∃ before after, log = before ++ (.remove v, true) :: after ∧ (.insert v, true) ∉ after

theorem gone_snoc {v : Val} {log : List (Op × Bool)} {x : Op × Bool}
    (h : Gone v (log ++ [x])) : x = (.remove v, true) ∨ (Gone v log ∧ x ≠ (.insert v, true)) := by
  obtain ⟨before, after, he, hn⟩ := h
  rcases List.eq_nil_or_concat after with rfl | ⟨after', y, rfl⟩
  · left
    have := List.append_inj_right' he rfl
    simpa using this
  · right
    have he' : log ++ [x] = (before ++ (.remove v, true) :: after') ++ [y] := by simpa using he
    obtain ⟨hl, hx⟩ := List.append_inj' he' rfl
    simp only [List.concat_eq_append, List.mem_append, not_or, List.mem_singleton] at hn
    refine ⟨⟨before, after', hl, hn.1⟩, fun hy => hn.2 ?_⟩
    rw [← hy]
    simpa using hx

theorem step_gone {e : Event ι} (hi : Inv s) (hu : Unique id s.cuckoo.content)
    (hv : e.val ≠ some 0) (h : step s e = some s')
    (hg : ∀ v, Gone v s.log → v ∉ stored s.cuckoo.content) :
    ∀ v, Gone v s'.log → v ∉ stored s'.cuckoo.content := by
  obtain ⟨new, hst⟩ := step_stepped hi hv h
  intro v hv'
  rw [hst.log] at hv'
  cases hst.effect with
  | moved hm =>
    rw [List.append_nil] at hv'
    rw [hm.stored_eq]
    exact hg v hv'
  | refused op _ hc =>
    rcases gone_snoc hv' with he | ⟨hgone, _⟩
    · cases he
    · rw [hc]; exact hg v hgone
  | looked w hc =>
    rcases gone_snoc hv' with he | ⟨hgone, _⟩
    · cases he
    · rw [hc]; exact hg v hgone
  | @wrote d cell w hm hd _ hc =>
    rcases gone_snoc hv' with he | ⟨hgone, hne⟩
    · cases he
    · have hvw : v ≠ w := fun he => hne (he ▸ rfl)
      rw [hc, stored_put hd, hm.stored_eq]
      exact fun hmem => (Set.mem_insert_iff.mp hmem).elim hvw (hg v hgone)
  | @removed cell w hw hc =>
    rw [hc, stored_erase hu hw]
    rcases gone_snoc hv' with he | ⟨hgone, _⟩
    · cases he
      simp
    · exact fun hmem => hg v hgone hmem.1

theorem run_gone {es : List (Event ι)} (hi : Inv s₀) (hu : Unique id s₀.cuckoo.content)
    (hv : Nonzero es) (hlog : s₀.log = []) (h : exec step s₀ es = some s)
    (hm : Meets step Fresh s₀ es) : ∀ v, Gone v s.log → v ∉ stored s.cuckoo.content := by
  have huniq := (run_unique_iff hi hu hv h).mpr hm
  refine exec_induction (motive := fun es' u => es' <+: es →
    ∀ v, Gone v u.log → v ∉ stored u.cuckoo.content) ?_ ?_ h List.prefix_rfl
  · rintro _ v ⟨before, after, he, _⟩
    rw [hlog] at he
    simp at he
  · intro es' u e w hu' ih hs hp
    have hp' : es' <+: es := (List.prefix_append _ _).trans hp
    have hiu := run_inv hi (fun x hx => hv x (hp'.subset hx)) hu'
    have huu : Unique id u.cuckoo.content := by
      refine huniq es'.length u ?_
      rw [← List.prefix_iff_eq_take.mp hp']
      exact hu'
    exact step_gone hiu huu (hv e (hp.subset (by simp))) hs (ih hp')

/-- **One slot per value.** From a well-placed table without duplicates, no state
of a run stores a value twice exactly when every step of the run is fresh; and in
such a run, once a remove of `v` has answered true and no insert of `v` has
written since, a `contains(v)` section answers false. -/
theorem unique_iff_fresh (hc : c.WellPlaced) (hu : Unique id c.content) {es : List (Event ι)}
    (hv : Nonzero es) (h : exec step (State.start c) es = some s) :
    ((∀ k u, exec step (State.start c) (es.take k) = some u → Unique id u.cuckoo.content) ↔
      Meets step Fresh (State.start c) es) ∧
    (Meets step Fresh (State.start c) es →
      ∀ v ≠ 0, Gone v s.log → s.cuckoo.contains v = false) := by
  have hi := start_inv (ι := ι) hc
  refine ⟨run_unique_iff hi hu hv h, fun hm v hv0 hg => ?_⟩
  have hn := run_gone hi hu hv rfl h hm v hg
  rw [← Bool.not_eq_true, contains_iff (run_inv hi hv h).toWellPlaced hv0]
  exact hn

/-- Thread 0 fills both buckets of the value 1 among two. -/
def fullBuckets : List (Event (Fin 3)) :=
  [3, 7, 5, 9, 13, 17, 21, 25, 29, 33, 37, 41].flatMap (quickInsert 0)

/-- One insert alone displaces 3 and writes; the value is then removed and gone. -/
theorem unique_iff_fresh_alone :
    ∃ s, exec step (State.start (.new 2)) (fullBuckets ++
        [.insert 1 1, .next 1 {}, .next 1 {}, .next 1 {}, .remove 2 1]) = some s ∧
      s.cuckoo.contains 1 = false := by
  have hrun : (exec step (State.start (.new 2)) (fullBuckets ++
      [.insert 1 1, .next 1 {}, .next 1 {}, .next 1 {}, .remove 2 1])).map
        (fun s => s.log.getLast?) = some (some (.remove 1, true)) := by
    decide +kernel
  obtain ⟨s, hs, hlast⟩ := Option.map_eq_some_iff.mp hrun
  have hu : Unique id (Cuckoo.new 2).content := by
    rw [content_new]
    intro _ _ _ _ ha
    cases ha
  obtain ⟨ys, hys⟩ := List.getLast?_eq_some_iff.mp hlast
  exact ⟨s, hs, (unique_iff_fresh (.new (by decide)) hu (by unfold Nonzero; decide) hs).2
    (by decide +kernel) 1 (by decide) ⟨ys, [], hys, by simp⟩⟩

/-- Threads 1 and 2 both find 1 missing and both buckets full; each then displaces
an entry of its own and writes. A remove takes one copy and leaves the other. -/
def twoInserts : List (Event (Fin 3)) :=
  fullBuckets ++ [.insert 1 1, .insert 2 1, .next 1 {}, .next 2 {}, .next 1 {}, .next 1 {},
    .next 2 {}, .next 2 {}, .remove 0 1, .contains 0 1]

theorem two_inserts_store_twice :
    ¬ ∀ s, exec step (State.start (.new 2)) twoInserts = some s →
      (∀ k u, exec step (State.start (.new 2)) (twoInserts.take k) = some u →
        Unique id u.cuckoo.content) ∧
      ∀ v ≠ 0, Gone v s.log → s.cuckoo.contains v = false := by
  intro h
  have hrun : (exec step (State.start (.new 2)) twoInserts).map
      (fun s => (s.log.drop 14, s.cuckoo.contains 1)) =
        some ([(.remove 1, true), (.contains 1, true)], true) := by
    decide +kernel
  obtain ⟨s, hs, hlog⟩ := Option.map_eq_some_iff.mp hrun
  obtain ⟨hdrop, hcont⟩ := Prod.mk.inj hlog
  have hgone : Gone 1 s.log :=
    ⟨s.log.take 14, [(.contains 1, true)], by rw [← hdrop, List.take_append_drop], by simp⟩
  have hfalse := (h s hs).2 1 (by decide) hgone
  rw [hcont] at hfalse
  cases hfalse

end ConcurrentComputing.TwoTable.Threads
