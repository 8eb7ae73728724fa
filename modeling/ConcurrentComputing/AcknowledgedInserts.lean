import ConcurrentComputing.ReplicaSteps
import Mathlib.Tactic.IntervalCases

/-! # When acknowledged inserts are stored

An insert returns `TRUE` once its messages are sent, whatever `store -> insert`
answers on the servers: the answer is dropped. The node is stored on every replica
as long as no search for room fails. -/

namespace ConcurrentComputing.Store.Cuckoo

open CuckooPath Placement

/-- In no round of an insert is the table one where both buckets are full, neither
has the key and the search finds no path. -/
def FindsRoomLoop (key : Word) (idx1 idx2 : Nat) (rands : Nat → Nat → Nat) :
    Nat → Nat → Cuckoo → Prop
  | 0, _, _ => True
  | fuel + 1, n, c =>
    ((c.firstCheck key idx1 idx2).isSome ∨
      (findPath c.scheme (.still c.view) (rands n) idx1 idx2).isSome) ∧
    match c.insertAt key idx1 idx2 (rands n) with
    | (.retry, c') => FindsRoomLoop key idx1 idx2 rands fuel (n + 1) c'
    | _ => True

def FindsRoom (c : Cuckoo) (element : Node) (rands : Nat → Nat → Nat) (fuel : Nat) : Prop :=
  FindsRoomLoop element.key (hash c.buckets element.key .one) (hash c.buckets element.key .two)
    rands fuel 0 c

instance decidableFindsRoomLoop (key : Word) (idx1 idx2 : Nat) (rands : Nat → Nat → Nat) :
    ∀ fuel n c, Decidable (FindsRoomLoop key idx1 idx2 rands fuel n c)
  | 0, _, _ => isTrue trivial
  | fuel + 1, n, c => by
    have := decidableFindsRoomLoop key idx1 idx2 rands fuel (n + 1)
    unfold FindsRoomLoop
    split <;> infer_instance

instance (c : Cuckoo) (element : Node) (rands : Nat → Nat → Nat) (fuel : Nat) :
    Decidable (c.FindsRoom element rands fuel) :=
  inferInstanceAs (Decidable (FindsRoomLoop _ _ _ _ _ _ _))

variable {c c' : Cuckoo} {key : Word} {idx1 idx2 : Nat} {rands : Nat → Nat → Nat}

theorem displaceAll_ne_resize : ∀ (path : List Hop) (c : Cuckoo),
    (c.displaceAll path).1 ≠ .resize
  | [], _ => InsertResult.noConfusion
  | [_], _ => InsertResult.noConfusion
  | dst :: src :: path, c => by
    rw [displaceAll]
    split
    · exact InsertResult.noConfusion
    · exact displaceAll_ne_resize (src :: path) _

/-- Only a failed search asks for a resize. -/
theorem insertAt_resize {rand : Nat → Nat} (h : c.insertAt key idx1 idx2 rand = (.resize, c')) :
    c.firstCheck key idx1 idx2 = none ∧ findPath c.scheme (.still c.view) rand idx1 idx2 = none := by
  unfold insertAt at h
  split at h
  · rename_i r hr
    obtain ⟨rfl, _⟩ := Prod.mk.inj h
    rcases firstCheck_spec c key idx1 idx2 with ⟨_, _, _, hf, _⟩ | ⟨_, _, _, hf, _⟩ | ⟨hf, _⟩ <;>
      rw [hf] at hr <;> cases hr
  · rename_i hf
    refine ⟨hf, ?_⟩
    split at h
    · assumption
    · rename_i hop _
      have hclaim := congrArg Prod.fst h
      dsimp only [claim] at hclaim
      split at hclaim <;> cases hclaim
    · exact absurd (congrArg Prod.fst h) (displaceAll_ne_resize _ c)

theorem insertLoop_not_refused {element : Node} :
    ∀ {fuel n : Nat} {c c' : Cuckoo} {r : Result},
      FindsRoomLoop element.key idx1 idx2 rands fuel n c →
      insertLoop element idx1 idx2 rands fuel n c = some (r, c') → r ≠ .abortFailure := by
  intro fuel
  induction fuel with
  | zero => intro n c c' r _ h; cases h
  | succ fuel ih =>
    intro n c c' r hroom h
    obtain ⟨hfound, hnext⟩ := hroom
    simp only [insertLoop] at h
    cases hres : c.insertAt element.key idx1 idx2 (rands n) with
    | mk res d =>
      rw [hres] at h hnext
      cases res with
      | resize =>
        obtain ⟨hf, hp⟩ := insertAt_resize hres
        rw [hf, hp] at hfound
        simp at hfound
      | retry => exact ih hnext h
      | duplicate side index slot => cases h; decide
      | success side index slot => cases h; decide

end ConcurrentComputing.Store.Cuckoo

namespace ConcurrentComputing.Replicated

open CuckooPath Placement Store LockClients Remote Runs Function

/-- The worker's next node finds room, or its key, in the store. -/
def Replica.Roomy (r : Replica) (w : Fin workerThreadCount) (rands : Nat → Nat → Nat)
    (fuel : Nat) : Prop :=
  match r.held w with
  | [] => True
  | (_, element) :: _ => r.store.FindsRoom element rands fuel

instance (r : Replica) (w : Fin workerThreadCount) (rands : Nat → Nat → Nat) (fuel : Nat) :
    Decidable (r.Roomy w rands fuel) := by
  unfold Replica.Roomy
  rcases r.held w with _ | ⟨⟨m, element⟩, rest⟩ <;> infer_instance

/-- No search for room fails. -/
def NeverFull {ι : Type} (s : State ι) : Event ι → Prop
  | .env (.insert j w rands fuel) => (s.env j).Roomy w rands fuel
  | _ => True

instance {ι : Type} (s : State ι) : ∀ e : Event ι, Decidable (NeverFull s e)
  | .env (.insert j w rands fuel) => inferInstanceAs (Decidable ((s.env j).Roomy w rands fuel))
  | .env (.receive _ _) | .call _ _ | .next _ _ => isTrue trivial

/-- Every key that has arrived waits to be inserted or is stored. -/
def Replica.Keeps (r : Replica) : Prop :=
  ∀ bytes ∈ r.arrivals, ∀ a ∈ nodesOf bytes, a.key ≠ 0 →
    (∃ p ∈ r.pending, p.2.key = a.key) ∨ ∃ v, ⟨a.key, v⟩ ∈ stored r.store.content

variable {r r' : Replica}

theorem Replica.Keeps.deliver {rs : Replicas} {m : Message} (h : (rs m.1).Keeps) :
    (deliver rs m m.1).Keeps := by
  intro bytes hb a ha hk
  rw [deliver_arrivals, List.mem_append, List.mem_singleton] at hb
  rcases hb with hb | rfl
  · rw [(deliver_store rs m m.1).1]
    rcases h bytes hb a ha hk with ⟨p, hp, he⟩ | hst
    · exact Or.inl ⟨p, (mem_pending_deliver rs m).mpr (Or.inl hp), he⟩
    · exact Or.inr hst
  · exact Or.inl ⟨((rs m.1).arrivals.length, a), (mem_pending_deliver rs m).mpr
      (Or.inr ⟨rfl, ha⟩), rfl⟩

theorem Replica.Keeps.handled {e : ServerEvent} (h : r.Keeps) (hwf : r.store.WellFormed)
    (hs : Handled r r' e)
    (hroom : ∀ j w rands fuel, e = .insert j w rands fuel → r.Roomy w rands fuel) :
    r'.Keeps := by
  cases hs with
  | received hstore harr _ hp =>
    intro bytes hb a ha hk
    rw [harr] at hb
    rw [hstore]
    simpa only [hp] using h bytes hb a ha hk
  | @inserted j w rands fuel m element rest result hheld hins harr _ hp =>
    have hfits := hroom j w rands fuel rfl
    unfold Replica.Roomy at hfits
    rw [hheld] at hfits
    have hne : result ≠ .abortFailure := Cuckoo.insertLoop_not_refused hfits hins
    intro bytes hb a ha hk
    rw [harr] at hb
    by_cases hkey : a.key = element.key
    · rw [hkey] at hk ⊢
      exact Or.inr ⟨_, ((Cuckoo.insert_stored hwf hk hins).1 hne _).mpr rfl⟩
    · rcases h bytes hb a ha hk with ⟨p, hpend, he⟩ | ⟨v, hst⟩
      · refine Or.inl ⟨p, ((hp p).mp hpend).resolve_left fun hpe => hkey ?_, he⟩
        rw [← he, hpe]
      · refine Or.inr ⟨v, ?_⟩
        by_cases hz : element.key = 0
        · have hsame := (Cuckoo.insert_spec hwf hins).2.2
          rw [if_pos hz] at hsame
          rwa [hsame]
        · exact ((Cuckoo.insert_stored hwf hz hins).2 _ v (Or.inl hkey)).mpr hst

variable {ι : Type} [DecidableEq ι] {n : Nat} {stores : Nat → Cuckoo} {s s' : State ι}
  {es : List (Event ι)}

/-- **One step** that finds room keeps what has arrived. -/
theorem step_keeps {e : Event ι} {j : Nat} (hroom : NeverFull s e)
    (hwf : (s.env j).store.WellFormed) (h : (s.env j).Keeps) (hs : step n s e = some s') :
    (s'.env j).Keeps := by
  rcases step_cases hs with ⟨_, _, _, _, _, henv⟩ | ⟨_, _, _, _, _, _, henv⟩ |
    ⟨_, _, _, m, _, _, _, _, _, henv⟩ | ⟨ev, hev, _, _, henv⟩
  · rwa [henv]
  · rwa [henv]
  · rw [henv]
    by_cases hj : j = m.1
    · subst hj
      exact h.deliver
    · rwa [deliver_other hj]
  · obtain ⟨hother, hhandled⟩ := handle_cases henv
    by_cases hj : j = ev.replica
    · subst hj
      refine h.handled hwf hhandled fun j w rands fuel he => ?_
      subst hev he
      exact hroom
    · rwa [hother j hj]

theorem run_keeps {j : Nat} (hwf : (stores j).WellFormed)
    (h : exec (step n) (start stores) es = some s)
    (hroom : Meets (step n) NeverFull (start stores) es) : (s.env j).Keeps := by
  refine exec_induction_of_meets (motive := fun _ (s : State ι) => (s.env j).Keeps) ?_ ?_ h hroom
  · exact nofun
  · intro es u e t hu ih hfits hs
    exact step_keeps hfits (stores_wellFormed hwf hu) ih hs

/-- Every message sent has arrived at its replica. -/
theorem run_arrivals (h : exec (step n) (start stores) es = some s) :
    ∀ r ∈ s.returned, ∀ m ∈ r.history.sent, m.2 ∈ (s.env m.1).arrivals := by
  refine (run_sent (D := fun rs m => m.2 ∈ (rs m.1).arrivals) ?_ ?_ ?_ h).2
  · intro rs m
    rw [deliver_arrivals]
    simp
  · intro rs m m' hm
    by_cases hj : m.1 = m'.1
    · rw [hj] at hm ⊢
      rw [deliver_arrivals]
      exact List.mem_append_left _ hm
    · rwa [deliver_other hj]
  · intro rs e rs' m hs hm
    obtain ⟨hother, hhandled⟩ := handle_cases hs
    by_cases hj : m.1 = e.replica
    · rw [hj] at hm ⊢
      cases hhandled with
      | received _ harr => rwa [harr]
      | inserted _ _ harr => rwa [harr]
    · rwa [hother _ hj]

/-- **Acknowledged inserts.** When no search for room fails in a run, every key
whose insert has returned `TRUE` is in the store of each replica once nothing waits
to be inserted. -/
theorem acknowledged_stored (hn : 0 < n) (hwf : ∀ j < n, (stores j).WellFormed)
    (h : exec (step n) (start stores) es = some s)
    (hroom : Meets (step n) NeverFull (start stores) es)
    (happlied : ∀ j < n, (s.env j).pending = [])
    {r : Returned InsertCall LockWord Int Message Result} (hr : r ∈ s.returned)
    {element : Node} (hcall : r.call = .pair element) (hk : element.key ≠ 0)
    (htrue : r.answer = .true) :
    ∀ j < n, (s.env j).store.contains element.key = .true := by
  intro j hj
  have hdone := ((reachable_inv hn h).answered r hr).answer
  rw [hcall, htrue] at hdone
  obtain ⟨ts, hperm, hsent⟩ := (hdone.resolve_left fun ha => nomatch ha.1).2
  have hmem : (j, element.bytes) ∈ r.history.sent := by
    rw [hsent]
    exact List.mem_map.mpr ⟨j, hperm.mem_iff.mpr (List.mem_range.mpr hj), rfl⟩
  have harrived := run_arrivals h r hr _ hmem
  rcases run_keeps (hwf j hj) h hroom element.bytes harrived element (by simp) hk with
    ⟨p, hp, _⟩ | hst
  · rw [happlied j hj] at hp
    cases hp
  · exact (Cuckoo.contains_iff (stores_wellFormed (hwf j hj) h).toWellPlaced hk).mpr hst

/-- One client inserts a pair over `n` replicas, alone, and the first worker of each
inserts it. -/
def insertAlone (n : Nat) (element : Node) : List (Event Unit) :=
  [.call () (.pair element)] ++ List.replicate (1 + n + n + n) (.next () 0) ++
    (List.range n).flatMap fun j =>
      [.env (.receive j 0), .env (.insert j 0 (fun _ _ => 0) 1)]

theorem insertAlone_calls {element : Node} {s : State Unit}
    (h : exec (step n) (start stores) (insertAlone n element) = some s) :
    ∀ r ∈ s.returned, r.call = .pair element := by
  refine (run_calls (P := fun c => c = InsertCall.pair element) ?_ h).2
  intro i c hm
  simpa [insertAlone] using hm

theorem acknowledged_stored_two :
    ∃ s, exec (step 2) (start fun _ => .new 1) (insertAlone 2 ⟨1, 10⟩) = some s ∧
      ∀ j < 2, (s.env j).store.contains 1 = .true := by
  have hrun : (exec (step 2) (start fun _ => .new 1) (insertAlone 2 ⟨1, 10⟩)).map (fun s =>
      (s.returned.map Returned.answer, (s.env 0).pending, (s.env 1).pending)) =
      some ([.true], [], []) := by
    decide +kernel
  obtain ⟨s, hs, hfinal⟩ := Option.map_eq_some_iff.mp hrun
  obtain ⟨hans, hpending⟩ := Prod.mk.inj hfinal
  obtain ⟨h0, h1⟩ := Prod.mk.inj hpending
  obtain ⟨r, hr, htrue⟩ := List.map_eq_singleton_iff.mp hans
  have hmem : r ∈ s.returned := by simp [hr]
  have hroom : Meets (step 2) NeverFull (start fun _ => .new 1) (insertAlone 2 ⟨1, 10⟩) := by
    decide +kernel
  have happlied : ∀ j < 2, (s.env j).pending = [] := by
    intro j hj
    interval_cases j
    · exact h0
    · exact h1
  have hcall := insertAlone_calls hs r hmem
  have hstored := acknowledged_stored (by decide) (fun _ _ => .new (by decide)) hs hroom happlied
    hmem hcall (by decide) htrue
  exact ⟨s, hs, hstored⟩

/-- One bucket, its eight slots taken by eight inserts. -/
def eightInserts : Cuckoo :=
  ([1, 2, 3, 4, 5, 6, 7, 8] : List Word).foldl (fun c key =>
    ((c.insert ⟨key, key⟩ (fun _ _ => 0) 1).map Prod.snd).getD c) (.new 1)

/-- The ninth pair is acknowledged and in no store. -/
theorem ninth_insert_lost :
    ¬ ∀ s, exec (step 1) (start fun _ => eightInserts) (insertAlone 1 ⟨9, 90⟩) = some s →
      (∀ j < 1, (s.env j).pending = []) → ∀ r ∈ s.returned, r.answer = .true →
        ∀ j < 1, (s.env j).store.contains 9 = .true := by
  intro h
  have hrun : (exec (step 1) (start fun _ => eightInserts) (insertAlone 1 ⟨9, 90⟩)).map (fun s =>
      (s.returned.map Returned.answer, (s.env 0).pending, (s.env 0).store.contains 9)) =
      some ([.true], [], .false) := by
    decide +kernel
  obtain ⟨s, hs, hfinal⟩ := Option.map_eq_some_iff.mp hrun
  obtain ⟨hans, hrest⟩ := Prod.mk.inj hfinal
  obtain ⟨hp, hc⟩ := Prod.mk.inj hrest
  obtain ⟨r, hr, htrue⟩ := List.map_eq_singleton_iff.mp hans
  have hstored := h s hs (fun j hj => by rwa [Nat.lt_one_iff.mp hj]) r (by simp [hr]) htrue 0
    (by decide)
  rw [hc] at hstored
  cases hstored

end ConcurrentComputing.Replicated
