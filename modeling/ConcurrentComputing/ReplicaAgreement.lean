import ConcurrentComputing.ReplicaSteps
import Mathlib.Tactic.IntervalCases

/-! # When replicas agree

The locks put the sends of two inserts of one key in the same order at every
replica, but they are given up before the servers have inserted anything. The
replicas come to agree as long as no worker inserts a node while an earlier
message with its key and another value waits at its replica. -/

namespace ConcurrentComputing.Replicated

open CuckooPath Placement Store LockClients Remote Runs Function

/-- No earlier message waits whose node has the key and not the value of the next
one the worker has. -/
def Replica.InOrder (r : Replica) (w : Fin workerThreadCount) : Prop :=
  match r.held w with
  | [] => True
  | (m, element) :: _ =>
    ∀ p ∈ r.pending, p.1 < m → p.2.key = element.key → p.2.val = element.val

instance (r : Replica) (w : Fin workerThreadCount) : Decidable (r.InOrder w) := by
  unfold Replica.InOrder
  rcases r.held w with _ | ⟨⟨m, element⟩, rest⟩ <;> infer_instance

/-- No worker overtakes another on one key. -/
def Ordered {ι : Type} (s : State ι) : Event ι → Prop
  | .env (.insert j w _ _) => (s.env j).InOrder w
  | _ => True

instance {ι : Type} (s : State ι) : ∀ e : Event ι, Decidable (Ordered s e)
  | .env (.insert j w _ _) => inferInstanceAs (Decidable ((s.env j).InOrder w))
  | .env (.receive _ _) | .call _ _ | .next _ _ => isTrue trivial

/-- An insert of one pair with a usable key. -/
def Plain : InsertCall → Prop
  | .pair element => 0 ≤ element.key.toInt ∧ element.key ≠ 0
  | .list _ _ => False

/-! ## One replica -/

/-- The value that last arrived for a key. -/
def Replica.latest (r : Replica) (k : Word) : Option Word :=
  (r.arrivals.flatMap nodesOf).foldl (fun v a => if a.key = k then some a.val else v) none

/-- What is to be stored under a key when all that has arrived is inserted, over a
table that started with the nodes `S`. -/
def Replica.Due (r : Replica) (S : Set Node) (k v : Word) : Prop :=
  match r.latest k with
  | some v' => v = v'
  | none => ⟨k, v⟩ ∈ S

variable {r r' : Replica} {S : Set Node} {k : Word} {element : Node}

/-- The message that arrived last for the key is the newest one waiting, or the
key has its final value and nothing that waits would change it. -/
def Replica.Current (r : Replica) (S : Set Node) (k : Word) : Prop :=
  (∃ m v, r.latest k = some v ∧ (m, ⟨k, v⟩) ∈ r.pending ∧
    ∀ m' v', (m', ⟨k, v'⟩) ∈ r.pending → m' ≤ m) ∨
  ((∀ v, ⟨k, v⟩ ∈ stored r.store.content ↔ r.Due S k v) ∧
    ∀ m' v', (m', ⟨k, v'⟩) ∈ r.pending → r.latest k = some v')

def Replica.Refused (r : Replica) (k : Word) : Prop :=
  ∃ a ∈ r.results, a.1.key = k ∧ a.2 = .abortFailure

/-- What holds of a replica that started with the nodes `S`. -/
structure Replica.Tracks (r : Replica) (S : Set Node) : Prop where
  numbered : ∀ p ∈ r.pending, p.1 < r.arrivals.length
  single : ∀ p ∈ r.pending, ∀ q ∈ r.pending, p.1 = q.1 → p.2 = q.2
  keyed : ∀ p ∈ r.pending, p.2.key ≠ 0
  current : ∀ k, ¬ r.Refused k → r.Current S k

theorem tracks_new (c : Cuckoo) : (Replica.new c).Tracks (stored c.content) := by
  have hp : (Replica.new c).pending = [] := by simp [Replica.new, Replica.pending]
  refine ⟨?_, ?_, ?_, fun k _ => Or.inr ⟨fun v => Iff.rfl, ?_⟩⟩ <;> rw [hp] <;> simp

theorem latest_deliver {rs : Replicas} (j : Nat) :
    (deliver rs (j, element.bytes) j).latest k =
      if element.key = k then some element.val else (rs j).latest k := by
  have harr := deliver_arrivals rs (j, element.bytes)
  dsimp only at harr
  rw [Replica.latest, harr]
  simp [Replica.latest]

/-- A message comes in: it is the newest for its key. -/
theorem Replica.Tracks.deliver {rs : Replicas} {j : Nat} (h : (rs j).Tracks S)
    (hk : element.key ≠ 0) : (deliver rs (j, element.bytes) j).Tracks S := by
  obtain ⟨hstore, hres⟩ := deliver_store rs (j, element.bytes) j
  have hlen := congrArg List.length (deliver_arrivals rs (j, element.bytes))
  have hmem : ∀ p, p ∈ (Replicated.deliver rs (j, element.bytes) j).pending ↔
      p ∈ (rs j).pending ∨ p = ((rs j).arrivals.length, element) := by
    intro p
    refine (mem_pending_deliver rs (j, element.bytes)).trans ?_
    rw [nodesOf_bytes, List.mem_singleton, Prod.ext_iff]
  rw [List.length_append, List.length_singleton] at hlen
  refine ⟨fun p hp => ?_, fun p hp q hq he => ?_, fun p hp => ?_,
    fun k hr => ?_⟩
  · rw [hlen]
    rcases (hmem p).mp hp with hp | rfl
    · exact (h.numbered p hp).trans (Nat.lt_succ_self _)
    · exact Nat.lt_succ_self _
  · rcases (hmem p).mp hp with hp | rfl <;> rcases (hmem q).mp hq with hq | rfl
    · exact h.single p hp q hq he
    · exact absurd he (h.numbered p hp).ne
    · exact absurd he.symm (h.numbered q hq).ne
    · rfl
  · rcases (hmem p).mp hp with hp | rfl
    · exact h.keyed p hp
    · exact hk
  · by_cases hek : element.key = k
    · subst hek
      refine Or.inl ⟨(rs j).arrivals.length, element.val, ?_, ?_, fun m' v' hp => ?_⟩
      · rw [latest_deliver, if_pos rfl]
      · exact (hmem _).mpr (Or.inr rfl)
      · rcases (hmem _).mp hp with hp | he
        · exact (h.numbered _ hp).le
        · exact (congrArg Prod.fst he).le
    · have hlatest : (Replicated.deliver rs (j, element.bytes) j).latest k = (rs j).latest k := by
        rw [latest_deliver, if_neg hek]
      have hsame : ∀ m v, (m, ⟨k, v⟩) ∈ (Replicated.deliver rs (j, element.bytes) j).pending ↔
          (m, ⟨k, v⟩) ∈ (rs j).pending := by
        intro m v
        rw [hmem]
        refine or_iff_left fun he => hek ?_
        exact (congrArg (fun p => p.2.key) he).symm
      have hcur := h.current k (by rwa [Replica.Refused, hres] at hr)
      simpa only [Replica.Current, Replica.Due, hlatest, hsame, hstore] using hcur

/-- A worker takes a step, in order. -/
theorem Replica.Tracks.handled {e : ServerEvent} (h : r.Tracks S) (hwf : r.store.WellFormed)
    (hs : Handled r r' e)
    (ho : ∀ j w rands fuel, e = .insert j w rands fuel → r.InOrder w) : r'.Tracks S := by
  cases hs with
  | received hstore harr hres hp =>
    refine ⟨fun p hm => ?_, fun p hm q hq => ?_, fun p hm => ?_, fun k hr => ?_⟩
    · rw [harr]
      exact h.numbered p ((hp p).mp hm)
    · exact h.single p ((hp p).mp hm) q ((hp q).mp hq)
    · exact h.keyed p ((hp p).mp hm)
    · have hcur := h.current k (by rwa [Replica.Refused, hres] at hr)
      simpa only [Replica.Current, Replica.Due, Replica.latest, harr, hp, hstore] using hcur
  | @inserted j w rands fuel m a rest result hheld hins harr hres hp =>
    have hold := ho j w rands fuel rfl
    unfold Replica.InOrder at hold
    rw [hheld] at hold
    dsimp only at hold
    have hfirst : (m, a) ∈ r.pending := (hp _).mpr (Or.inl rfl)
    have hsub : ∀ p, p ∈ r'.pending → p ∈ r.pending := fun p hm => (hp p).mpr (Or.inr hm)
    have hlatest : ∀ k, r'.latest k = r.latest k := fun k => by
      rw [Replica.latest, harr, Replica.latest]
    obtain ⟨hown, hother⟩ := Cuckoo.insert_stored hwf (h.keyed _ hfirst) hins
    refine ⟨fun p hm => ?_, fun p hm q hq => h.single p (hsub p hm) q (hsub q hq), fun p hm => h.keyed p (hsub p hm),
      fun k hr => ?_⟩
    · rw [harr]
      exact h.numbered p (hsub p hm)
    · have hr' : ¬ r.Refused k := fun ⟨b, hb, hbk⟩ => hr ⟨b, by rw [hres]; simp [hb], hbk⟩
      by_cases hak : a.key = k
      · subst hak
        have hne : result ≠ .abortFailure := fun he =>
          hr ⟨(a, result), by rw [hres]; simp, rfl, he⟩
        -- what waits with this key after the last message for it has its value
        have hdone : r.latest a.key = some a.val →
            (∀ m' v', (m', ⟨a.key, v'⟩) ∈ r'.pending → v' = a.val) → r'.Current S a.key := by
          intro hlast hall
          refine Or.inr ⟨fun v => ?_, fun m' v' hm => ?_⟩
          · rw [hown hne v, Replica.Due, hlatest, hlast]
          · rw [hlatest, hlast, hall m' v' hm]
        rcases h.current a.key hr' with ⟨n, v, hlast, hn, hnewest⟩ | ⟨hst, hwait⟩
        · rcases (hp _).mp hn with he | hn'
          · obtain ⟨rfl, hnode⟩ := Prod.mk.inj he
            have hv : (⟨a.key, v⟩ : Node).val = a.val := congrArg Node.val hnode
            refine hdone (hv ▸ hlast) fun m' v' hm => ?_
            rcases Nat.lt_or_eq_of_le (hnewest m' v' (hsub _ hm)) with hlt | heq
            · exact hold _ (hsub _ hm) hlt rfl
            · exact congrArg Node.val (h.single _ (hsub _ hm) _ hfirst heq)
          · refine Or.inl ⟨n, v, (hlatest _).trans hlast, hn', fun m' v' hm => ?_⟩
            exact hnewest m' v' (hsub _ hm)
        · have hlast := hwait m a.val hfirst
          refine hdone hlast fun m' v' hm => ?_
          exact Option.some.inj ((hwait m' v' (hsub _ hm)).symm.trans hlast)
      · have hsame : ∀ m' v', (m', (⟨k, v'⟩ : Node)) ∈ r'.pending ↔ (m', ⟨k, v'⟩) ∈ r.pending := by
          intro m' v'
          rw [hp]
          refine (or_iff_right fun he => hak ?_).symm
          exact (congrArg (fun p => p.2.key) he).symm
        have hst : ∀ v, ⟨k, v⟩ ∈ stored r'.store.content ↔ ⟨k, v⟩ ∈ stored r.store.content :=
          fun v => hother k v (Or.inl (Ne.symm hak))
        have hcur := h.current k hr'
        simpa only [Replica.Current, Replica.Due, hlatest, hsame, hst] using hcur

/-! ## All of them -/

variable {ι : Type} [DecidableEq ι] {n : Nat} {stores : Nat → Cuckoo} {s s' : State ι}
  {es : List (Event ι)} {i : ι}

/-- The client is in an insert of the pair and has sent it to the replica. -/
def SentTo (s : State ι) (i : ι) (j : Nat) (element : Node) : Prop :=
  ∃ r, s.client i = some r ∧ r.call = .pair element ∧ (j, element.bytes) ∈ r.history.sent

/-- The replicas an insert in progress has sent to have its value last, all others
one value. -/
def Agreed (n : Nat) (s : State ι) (k : Word) : Prop :=
  ∃ c, ∀ j < n,
    (∀ i element, SentTo s i j element → element.key = k →
      (s.env j).latest k = some element.val) ∧
    ((∀ i element, SentTo s i j element → element.key ≠ k) → (s.env j).latest k = c)

/-- The same, with one client taken to have sent `sent`. -/
def AgreedBut (n : Nat) (s : State ι) (k : Word) (i : ι) (element : Node)
    (sent : List Message) (env : Replicas) : Prop :=
  ∃ c, ∀ j < n,
    (∀ i' a, i' ≠ i → SentTo s i' j a → a.key = k → (env j).latest k = some a.val) ∧
    ((j, element.bytes) ∈ sent → element.key = k → (env j).latest k = some element.val) ∧
    ((∀ i' a, i' ≠ i → SentTo s i' j a → a.key ≠ k) →
      ((j, element.bytes) ∈ sent → element.key ≠ k) → (env j).latest k = c)

omit [DecidableEq ι] in
theorem sentTo_other {i' : ι} {j : Nat} {a : Node} (h : s'.client i' = s.client i') :
    SentTo s' i' j a ↔ SentTo s i' j a := by
  simp only [SentTo, h]

omit [DecidableEq ι] in
theorem sentTo_self {r : Running InsertCall LockWord Int Message Result} {j : Nat} {a : Node}
    (hi : s.client i = some r) (hc : r.call = .pair element) :
    SentTo s i j a ↔ a = element ∧ (j, element.bytes) ∈ r.history.sent := by
  refine ⟨fun ⟨r', hr', hc', hm⟩ => ?_, fun ⟨ha, hm⟩ => ⟨r, hi, ha ▸ hc, ha ▸ hm⟩⟩
  rw [hi] at hr'
  cases hr'
  rw [hc] at hc'
  cases hc'
  exact ⟨rfl, hm⟩

/-- Going on keeps the account of what was sent; returning, the call has sent to
nobody or to all. -/
theorem Agreed.resumed {sent : List Message}
    (hinv : Inv (lockWords n) (InsertCall.During n) (InsertCall.Done n) s')
    (hr : Resumed s s' i (.pair element) sent)
    (h : AgreedBut n s k i element sent s'.env) : Agreed n s' k := by
  obtain ⟨c, hc⟩ := h
  cases hr with
  | going r hcall hsent hclient hret =>
    have hself : s'.client i = some r := by rw [hclient, update_self]
    have hother : ∀ i' ≠ i, s'.client i' = s.client i' := fun i' hi => by
      rw [hclient, update_of_ne hi]
    refine ⟨c, fun j hj => ?_⟩
    obtain ⟨hoth, hown, hnone⟩ := hc j hj
    refine ⟨fun i' a ha hak => ?_, fun hno => ?_⟩
    · by_cases hi : i' = i
      · subst hi
        obtain ⟨r', hr', hcall', hm⟩ := ha
        rw [hself] at hr'
        cases hr'
        rw [hcall] at hcall'
        cases hcall'
        exact hown (hsent ▸ hm) hak
      · exact hoth i' a hi ((sentTo_other (hother i' hi)).mp ha) hak
    · refine hnone (fun i' a hi ha => ?_) fun hm => ?_
      · exact hno i' a ((sentTo_other (hother i' hi)).mpr ha)
      · exact hno i element ⟨r, hself, hcall, hsent.symm ▸ hm⟩
  | back r hcall hsent hclient hret =>
    have hself : ∀ j a, ¬ SentTo s' i j a := fun j a ⟨r', hr', _⟩ => by
      rw [hclient, update_self] at hr'
      cases hr'
    have hother : ∀ i' ≠ i, s'.client i' = s.client i' := fun i' hi => by
      rw [hclient, update_of_ne hi]
    have hoth' : ∀ j < n, ∀ i' a, SentTo s' i' j a → a.key = k →
        (s'.env j).latest k = some a.val := by
      intro j hj i' a ha hak
      by_cases hi : i' = i
      · exact absurd (hi ▸ ha) (hself j a)
      · exact (hc j hj).1 i' a hi ((sentTo_other (hother i' hi)).mp ha) hak
    have hdone := hinv.answered r (by rw [hret]; simp)
    rw [hcall] at hdone
    by_cases hall : element.key = k ∧ ∀ j < n, (j, element.bytes) ∈ sent
    · refine ⟨some element.val, fun j hj => ⟨hoth' j hj, fun _ => ?_⟩⟩
      exact (hc j hj).2.1 (hall.2 j hj) hall.1
    · refine ⟨c, fun j hj => ⟨hoth' j hj, fun hno => (hc j hj).2.2 (fun i' a hi ha => ?_) ?_⟩⟩
      · exact hno i' a ((sentTo_other (hother i' hi)).mpr ha)
      · intro hm hek
        rcases hdone.answer with ⟨_, hnil⟩ | ⟨_, ts, hperm, hs⟩
        · rw [hsent] at hnil
          simp [hnil] at hm
        · refine hall ⟨hek, fun j' hj' => ?_⟩
          rw [← hsent, hs]
          exact List.mem_map.mpr ⟨j', hperm.mem_iff.mpr (List.mem_range.mpr hj'), rfl⟩

/-- An insert of a pair sends its bytes to replicas. -/
theorem sent_pair {sent : List Message}
    (hinv : Inv (lockWords n) (InsertCall.During n) (InsertCall.Done n) s')
    (hr : Resumed s s' i (.pair element) sent) : ∀ m ∈ sent, m.1 < n ∧ m.2 = element.bytes := by
  intro m hm
  cases hr with
  | going r hcall hsent hclient hret =>
    have hduring := (hinv.toClients.running (by rw [hclient, update_self])).2
    rw [hcall] at hduring
    rcases hduring with ⟨_, hnil⟩ | ⟨_, ts, _, hlt, hs⟩
    · rw [← hsent, hnil] at hm
      cases hm
    · rw [← hsent, hs] at hm
      obtain ⟨t, ht, rfl⟩ := List.mem_map.mp hm
      exact ⟨hlt t ht, rfl⟩
  | back r hcall hsent hclient hret =>
    have hdone := (hinv.answered r (by rw [hret]; simp)).answer
    rw [hcall] at hdone
    rcases hdone with ⟨_, hnil⟩ | ⟨_, ts, hperm, hs⟩
    · rw [← hsent, hnil] at hm
      cases hm
    · rw [← hsent, hs] at hm
      obtain ⟨t, ht, rfl⟩ := List.mem_map.mp hm
      exact ⟨List.mem_range.mp (hperm.mem_iff.mp ht), rfl⟩

/-- While one client is inside the section of a key, no other has sent for it. -/
theorem SentTo.alone {r : Running InsertCall LockWord Int Message Result} {i' : ι} {j : Nat}
    {a : Node} (hinv : Inv (lockWords n) (InsertCall.During n) (InsertCall.Done n) s)
    (hi : s.client i = some r) (hin : lockOffset a.key ∈ r.history.inside)
    (ha : SentTo s i' j a) : i' = i := by
  obtain ⟨r', hi', hcall', hm⟩ := ha
  have hduring := (hinv.toClients.running hi').2
  rw [hcall'] at hduring
  rcases hduring with ⟨_, hnil⟩ | ⟨hin', _⟩
  · rw [hnil] at hm
    cases hm
  · by_contra hne
    refine Finset.disjoint_left.mp (hinv.exclusive.inside i' i hne) ?_ ((ownedBy_some hi).2 ▸ hin)
    rw [(ownedBy_some hi').2, hin']
    exact Finset.mem_singleton_self _

omit [DecidableEq ι] in
theorem Agreed.but {sent : List Message} (h : Agreed n s k)
    (hself : ∀ j a, SentTo s i j a ↔ a = element ∧ (j, element.bytes) ∈ sent) :
    AgreedBut n s k i element sent s.env := by
  obtain ⟨c, hc⟩ := h
  refine ⟨c, fun j hj => ⟨fun i' a _ ha => (hc j hj).1 i' a ha, fun hm => ?_, fun hoth hown => ?_⟩⟩
  · exact (hc j hj).1 i element ((hself j element).mpr ⟨rfl, hm⟩)
  · refine (hc j hj).2 fun i' a ha => ?_
    by_cases hi : i' = i
    · subst hi
      obtain ⟨rfl, hm⟩ := (hself j a).mp ha
      exact hown hm
    · exact hoth i' a hi ha

omit [DecidableEq ι] in
/-- A client alone in the section of its key sends to one more replica. -/
theorem AgreedBut.send {sent : List Message} {t : Nat} (h : AgreedBut n s k i element sent s.env)
    (halone : ∀ i' j a, SentTo s i' j a → a.key = element.key → i' = i) :
    AgreedBut n s k i element (sent ++ [(t, element.bytes)])
      (deliver s.env (t, element.bytes)) := by
  obtain ⟨c, hc⟩ := h
  refine ⟨c, fun j hj => ?_⟩
  obtain ⟨hoth, hown, hnone⟩ := hc j hj
  by_cases hjt : j = t
  · subst hjt
    rw [latest_deliver]
    by_cases hek : element.key = k
    · rw [if_pos hek]
      refine ⟨fun i' a hi ha hak => absurd ?_ hi, fun _ _ => rfl, fun _ hno => absurd hek ?_⟩
      · exact halone i' j a ha (hak.trans hek.symm)
      · exact hno (by simp)
    · rw [if_neg hek]
      exact ⟨hoth, fun _ he => absurd he hek, fun ho _ => hnone ho fun _ => hek⟩
  · rw [deliver_other hjt]
    have hm : (j, element.bytes) ∈ sent ++ [(t, element.bytes)] ↔ (j, element.bytes) ∈ sent := by
      simp [hjt]
    rw [hm]
    exact ⟨hoth, hown, hnone⟩

/-- **One step** keeps the replicas agreed on what last arrived. -/
theorem step_agreed {e : Event ι}
    (hinv : Inv (lockWords n) (InsertCall.During n) (InsertCall.Done n) s)
    (hinv' : Inv (lockWords n) (InsertCall.During n) (InsertCall.Done n) s')
    (hcalls : ∀ i r, s.client i = some r → Plain r.call) (he : ∀ i c, e = .call i c → Plain c)
    (h : Agreed n s k) (hs : step n s e = some s') : Agreed n s' k := by
  have hpair : ∀ {c}, Plain c → ∃ element, c = .pair element := by
    intro c hc
    cases c with
    | pair element => exact ⟨element, rfl⟩
    | list elements beyond => exact hc.elim
  rcases step_cases hs with ⟨i, c, hev, hi, hr, henv⟩ | ⟨i, r, _, _, hi, hr, henv⟩ |
    ⟨i, r, _, m, p, _, hi, hp, hr, henv⟩ | ⟨ev, _, hclient, _, henv⟩
  · obtain ⟨element, rfl⟩ := hpair (he i c hev)
    refine Agreed.resumed hinv' hr (henv ▸ h.but fun j a => ?_)
    refine iff_of_false (fun ⟨r, hr, _⟩ => ?_) (by simp)
    rw [hi] at hr
    cases hr
  · obtain ⟨element, hc⟩ := hpair (hcalls i r hi)
    rw [hc] at hr
    exact Agreed.resumed hinv' hr (henv ▸ h.but fun j a => sentTo_self hi hc)
  · obtain ⟨element, hc⟩ := hpair (hcalls i r hi)
    rw [hc] at hr
    obtain ⟨t, bytes⟩ := m
    obtain ⟨_, rfl⟩ := sent_pair hinv' hr (t, bytes) (by simp)
    refine Agreed.resumed hinv' hr (henv ▸ (h.but fun j a => sentTo_self hi hc).send ?_)
    intro i' j a ha hak
    refine ha.alone hinv hi ?_
    -- it sends from inside its section
    have hsafe := hinv.safe i r hi
    rw [hp, hc] at hsafe
    obtain ⟨_, hduring, ⟨b, hb⟩, _⟩ := hsafe
    rcases hduring with ⟨hin, _⟩ | ⟨hin, _⟩
    · rw [hin] at hb
      cases hb
    · rw [hin, hak]
      exact Finset.mem_singleton_self _
  · obtain ⟨hother, hhandled⟩ := handle_cases henv
    have hlatest : ∀ j, (s'.env j).latest k = (s.env j).latest k := by
      intro j
      by_cases hj : j = ev.replica
      · subst hj
        cases hhandled with
        | received _ harr => rw [Replica.latest, harr, Replica.latest]
        | inserted _ _ harr => rw [Replica.latest, harr, Replica.latest]
      · rw [hother j hj]
    have hsent : ∀ i j a, SentTo s' i j a ↔ SentTo s i j a := fun i j a =>
      sentTo_other (by rw [hclient])
    simpa only [Agreed, hsent, hlatest] using h

/-- **One step** in order keeps every replica on track. -/
theorem step_tracks {e : Event ι} {j : Nat}
    (hinv' : Inv (lockWords n) (InsertCall.During n) (InsertCall.Done n) s')
    (hcalls : ∀ i r, s.client i = some r → Plain r.call) (ho : Ordered s e)
    (hwf : (s.env j).store.WellFormed) (h : (s.env j).Tracks S) (hs : step n s e = some s') : (s'.env j).Tracks S := by
  rcases step_cases hs with ⟨_, _, _, _, _, henv⟩ | ⟨_, _, _, _, _, _, henv⟩ |
    ⟨i, r, _, m, _, _, hi, _, hr, henv⟩ | ⟨ev, hev, _, _, henv⟩
  · rwa [henv]
  · rwa [henv]
  · rw [henv]
    by_cases hj : j = m.1
    · have hplain := hcalls i r hi
      generalize r.call = c at hr hplain
      cases c with
      | list elements beyond => exact hplain.elim
      | pair element =>
        obtain ⟨t, bytes⟩ := m
        obtain ⟨_, rfl⟩ := sent_pair hinv' hr (t, bytes) (by simp)
        subst hj
        exact h.deliver hplain.2
    · rwa [deliver_other hj]
  · obtain ⟨hother, hhandled⟩ := handle_cases henv
    by_cases hj : j = ev.replica
    · subst hj
      refine h.handled hwf hhandled fun j w rands fuel he => ?_
      subst hev he
      exact ho
    · rwa [hother j hj]

/-- **Replica agreement.** When no worker overtakes another on one key in a run of
inserts of single pairs, two replicas that started with the same pairs have, once
nothing is going on, the same value for every key that no replica refused. -/
theorem replicas_agree (hn : 0 < n) (hwf : ∀ j < n, (stores j).WellFormed)
    (h : exec (step n) (start stores) es = some s) (hcalls : ∀ i c, .call i c ∈ es → Plain c)
    (hordered : Meets (step n) Ordered (start stores) es) (hq : Quiescent n s) {j₁ j₂ : Nat}
    (h₁ : j₁ < n) (h₂ : j₂ < n)
    (heq : stored (stores j₁).content = stored (stores j₂).content)
    (hk : ∀ j < n, ¬ (s.env j).Refused k) (v : Word) :
    ⟨k, v⟩ ∈ stored (s.env j₁).store.content ↔ ⟨k, v⟩ ∈ stored (s.env j₂).store.content := by
  have hrun : (∀ i c, .call i c ∈ es → Plain c) →
      Agreed n s k ∧ ∀ j < n, (s.env j).Tracks (stored (stores j).content) := by
    refine exec_induction_of_meets (motive := fun es s => (∀ i c, .call i c ∈ es → Plain c) →
      Agreed n s k ∧ ∀ j < n, (s.env j).Tracks (stored (stores j).content)) ?_ ?_ h hordered
    · refine fun _ => ⟨⟨none, fun j _ => ⟨fun i a hsent => ?_, fun _ => rfl⟩⟩, ?_⟩
      · obtain ⟨r, hr, _⟩ := hsent
        cases hr
      · exact fun j _ => tracks_new (stores j)
    · intro es u e t hu ih ho hs hcalls
      obtain ⟨hagreed, htracks⟩ := ih fun i c hc => hcalls i c (by simp [hc])
      have hinv' := reachable_inv hn (exec_snoc.mpr ⟨u, hu, hs⟩)
      have hplain := (run_calls (fun i c hc => hcalls i c (by simp [hc])) hu).1
      refine ⟨step_agreed (reachable_inv hn hu) hinv' hplain (fun i c he => ?_) hagreed hs,
        fun j hj => step_tracks hinv' hplain ho (stores_wellFormed (hwf j hj) hu) (htracks j hj) hs⟩
      exact hcalls i c (by simp [he])
  obtain ⟨⟨c, hc⟩, htracks⟩ := hrun hcalls
  have hfinal : ∀ j < n, ∀ v, ⟨k, v⟩ ∈ stored (s.env j).store.content ↔
      (s.env j).Due (stored (stores j).content) k v := by
    intro j hj
    rcases (htracks j hj).current k (hk j hj) with ⟨_, _, _, hp, _⟩ | ⟨hst, _⟩
    · rw [hq.applied j hj] at hp
      cases hp
    · exact hst
  have hlatest : ∀ j < n, (s.env j).latest k = c := by
    refine fun j hj => (hc j hj).2 fun i a ⟨r, hr, _⟩ => ?_
    rw [hq.idle i] at hr
    cases hr
  rw [hfinal j₁ h₁, hfinal j₂ h₂, Replica.Due, Replica.Due, hlatest j₁ h₁, hlatest j₂ h₂, heq]

/-- Two inserts of one key over two replicas, one after the other; each replica's
first worker takes the first message, its second the second. -/
def twoInserts : List (Event Unit) :=
  [.call () (.pair ⟨1, 10⟩)] ++ List.replicate 7 (.next () 0) ++
    [.call () (.pair ⟨1, 20⟩)] ++ List.replicate 7 (.next () 0) ++
    [.env (.receive 0 0), .env (.receive 0 1), .env (.receive 1 0), .env (.receive 1 1)]

/-- The workers of both replicas insert in the order of the messages. -/
def inOrder : List (Event Unit) :=
  twoInserts ++ [.env (.insert 0 0 (fun _ _ => 0) 1), .env (.insert 0 1 (fun _ _ => 0) 1),
    .env (.insert 1 0 (fun _ _ => 0) 1), .env (.insert 1 1 (fun _ _ => 0) 1)]

/-- The second worker of the second replica is faster than the first. -/
def overtaken : List (Event Unit) :=
  twoInserts ++ [.env (.insert 0 0 (fun _ _ => 0) 1), .env (.insert 0 1 (fun _ _ => 0) 1),
    .env (.insert 1 1 (fun _ _ => 0) 1), .env (.insert 1 0 (fun _ _ => 0) 1)]

instance (r : Replica) (k : Word) : Decidable (r.Refused k) := by
  unfold Replica.Refused
  infer_instance

/-- The one client is idle, nothing waits at the two replicas and neither has
refused the key 1. -/
def Over (s : State Unit) : Bool :=
  (s.client ()).isNone && [0, 1].all fun j =>
    decide ((s.env j).pending = [] ∧ ¬ (s.env j).Refused 1)

theorem quiescent_of_over {s : State Unit} (h : Over s = true) :
    Quiescent 2 s ∧ ∀ j < 2, ¬ (s.env j).Refused 1 := by
  simp only [Over, Bool.and_eq_true, Option.isNone_iff_eq_none, List.all_cons, List.all_nil,
    decide_eq_true_eq, and_true] at h
  obtain ⟨hidle, ⟨hp0, hr0⟩, hp1, hr1⟩ := h
  refine ⟨⟨fun _ => hidle, fun j hj => ?_⟩, fun j hj => ?_⟩ <;> interval_cases j <;> assumption

theorem replicas_agree_two : ∃ s, exec (step 2) (start fun _ => .new 1) inOrder = some s ∧
    (⟨1, 20⟩ ∈ stored (s.env 0).store.content ↔ ⟨1, 20⟩ ∈ stored (s.env 1).store.content) := by
  have hrun : (exec (step 2) (start fun _ => .new 1) inOrder).map Over = some true := by
    decide +kernel
  obtain ⟨s, hs, hover⟩ := Option.map_eq_some_iff.mp hrun
  obtain ⟨hq, hr⟩ := quiescent_of_over hover
  refine ⟨s, hs, replicas_agree (by decide) (fun _ _ => .new (by decide)) hs (fun i c hc => ?_)
    (by decide +kernel) hq (by decide) (by decide) rfl hr 20⟩
  have hcalls : c = .pair ⟨1, 10⟩ ∨ c = .pair ⟨1, 20⟩ := by
    simpa [inOrder, twoInserts] using hc
  rcases hcalls with rfl | rfl
  · exact ⟨by decide, by decide⟩
  · exact ⟨by decide, by decide⟩

/-- Overtaken, the second replica keeps the first value for good. -/
theorem overtaken_replicas_differ :
    ¬ ∀ s, exec (step 2) (start fun _ => .new 1) overtaken = some s → Quiescent 2 s →
      (∀ j < 2, ¬ (s.env j).Refused 1) → ∀ v, (⟨1, v⟩ ∈ stored (s.env 0).store.content ↔
        ⟨1, v⟩ ∈ stored (s.env 1).store.content) := by
  intro h
  have hrun : (exec (step 2) (start fun _ => .new 1) overtaken).map (fun s =>
      (Over s, (s.env 0).store.content (0, 0), (s.env 1).store.content (0, 0))) =
      some (true, some ⟨1, 20⟩, some ⟨1, 10⟩) := by
    decide +kernel
  obtain ⟨s, hs, hfinal⟩ := Option.map_eq_some_iff.mp hrun
  obtain ⟨hover, hvals⟩ := Prod.mk.inj hfinal
  obtain ⟨h0, h1⟩ := Prod.mk.inj hvals
  obtain ⟨hq, hr⟩ := quiescent_of_over hover
  obtain ⟨cell, hcell⟩ := (h s hs hq hr 20).mp ⟨_, h0⟩
  have hwf : (s.env 1).store.WellFormed := by
    refine stores_wellFormed ?_ hs
    exact .new (by decide)
  rw [hwf.unique cell (0, 0) _ _ hcell h1 rfl, h1] at hcell
  cases hcell

end ConcurrentComputing.Replicated
