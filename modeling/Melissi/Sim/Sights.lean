import Melissi.Sim.Watch

/-!
# Neighbourhoods in which not everyone sees everyone

Nodes start from any list of sights, who sees whom in which order. A node pulls from those it sees,
and serves what it stores; so what a node ends with is what was given to the nodes its sights lead
to, through any number of others. A ring with a fanout is a case: its sights lead everywhere.
-/

namespace Melissi.Sim

open Melissi.Common Melissi.Machine Melissi.Machine.PullState Melissi.Settlement Melissi.Node
  Melissi.Puller
open Std (ExtTreeMap ExtTreeSet)

/-! ## Starting -/

/-- The nodes see the peers of a list of sights, in its order. -/
def startWith (s : Sim) (es : List (ℕ × ℕ)) : Sim :=
  es.foldl (fun s e => s.feed e.1 (.peerSeen (peerId e.2))) s

/-- Ring topology: each node sees `fanout` peers on each side. -/
def startRing (s : Sim) (fanout : ℕ) : Sim :=
  if s.k = 0 ∨ fanout = 0 then s
  else (List.range s.k).foldl (fun s' i => (List.range' 1 fanout).foldl (fun s' d =>
    let left := (i + s.k - d) % s.k
    let right := (i + d) % s.k
    (s'.feed i (.peerSeen (peerId left))).feed i (.peerSeen (peerId right))) s') s

/-- The sights of a ring. -/
def ringSights (k fanout : ℕ) : List (ℕ × ℕ) :=
  (List.range k).flatMap fun i => (List.range' 1 fanout).flatMap fun d =>
    [(i, (i + k - d) % k), (i, (i + d) % k)]

theorem startRing_eq (s : Sim) (fanout : ℕ) :
    s.startRing fanout = s.startWith (ringSights s.k fanout) := by
  rw [startRing]
  split
  · next h =>
    have hnone : ringSights s.k fanout = [] := by
      rcases h with h | h <;> simp [ringSights, h]
    rw [hnone]
    rfl
  · rw [startWith, ringSights, List.foldl_flatMap]
    congr 1
    funext s' i
    rw [List.foldl_flatMap]
    rfl

theorem mem_ringSights {k fanout : ℕ} {e : ℕ × ℕ} : e ∈ ringSights k fanout ↔
    e.1 < k ∧ ∃ d, 1 ≤ d ∧ d ≤ fanout ∧ (e.2 = (e.1 + k - d) % k ∨ e.2 = (e.1 + d) % k) := by
  obtain ⟨i, j⟩ := e
  simp only [ringSights, List.mem_flatMap, List.mem_range, List.mem_range'_1, List.mem_cons,
    Prod.mk.injEq, List.not_mem_nil, or_false]
  constructor
  · rintro ⟨i', hi, d, hd, ⟨rfl, rfl⟩ | ⟨rfl, rfl⟩⟩
    · exact ⟨hi, d, hd.1, by omega, .inl rfl⟩
    · exact ⟨hi, d, hd.1, by omega, .inr rfl⟩
  · rintro ⟨hi, d, h1, hd, h | h⟩
    · exact ⟨i, hi, d, ⟨h1, by omega⟩, .inl ⟨rfl, h⟩⟩
    · exact ⟨i, hi, d, ⟨h1, by omega⟩, .inr ⟨rfl, h⟩⟩

/-- With a fanout short of the ring, no node sees itself. -/
theorem ringSights_sights {k fanout : ℕ} (h : fanout < k) {e : ℕ × ℕ}
    (he : e ∈ ringSights k fanout) : e ∈ sights k := by
  obtain ⟨hi, d, h1, hd, hj⟩ := mem_ringSights.mp he
  have hk : 0 < k := by omega
  refine mem_sights.mpr ⟨hi, ?_, ?_⟩
  · rcases hj with hj | hj <;> rw [hj] <;> exact Nat.mod_lt _ hk
  · rcases hj with hj | hj
    · rw [hj]
      rcases Nat.lt_or_ge e.1 d with hlt | hge
      · rw [Nat.mod_eq_of_lt (by omega)]
        omega
      · rw [show e.1 + k - d = e.1 - d + k by omega, Nat.add_mod_right, Nat.mod_eq_of_lt (by omega)]
        omega
    · rw [hj]
      rcases Nat.lt_or_ge (e.1 + d) k with hlt | hge
      · rw [Nat.mod_eq_of_lt hlt]
        omega
      · rw [Nat.mod_eq_sub_mod hge, Nat.mod_eq_of_lt (by omega)]
        omega

/-- A sight of the list. -/
def Sees (es : List (ℕ × ℕ)) (i j : ℕ) : Prop := (i, j) ∈ es

/-- The sights lead from one node to the other. -/
def Leads (es : List (ℕ × ℕ)) : ℕ → ℕ → Prop := Relation.ReflTransGen (Sees es)

/-- Around a ring the sights lead everywhere. -/
theorem leads_ring {k fanout : ℕ} (h1 : 1 ≤ fanout) {i j : ℕ} (hi : i < k) (hj : j < k) :
    Leads (ringSights k fanout) i j := by
  have hnext : ∀ n, Leads (ringSights k fanout) i ((i + n) % k) := by
    intro n
    induction n with
    | zero =>
      rw [Nat.add_zero, Nat.mod_eq_of_lt hi]
      exact .refl
    | succ n ih =>
      refine ih.tail (mem_ringSights.mpr ⟨Nat.mod_lt _ (by omega), 1, le_rfl, h1, .inr ?_⟩)
      dsimp only
      rw [Nat.mod_add_mod, Nat.add_assoc]
  have hij := hnext (k - i + j)
  rwa [show i + (k - i + j) = j + k by omega, Nat.add_mod_right, Nat.mod_eq_of_lt hj] at hij

/-- The peers that a node sees. -/
def seenBy (es : List (ℕ × ℕ)) (i : ℕ) : List PeerId :=
  (es.filter fun e => e.1 = i).map fun e => peerId e.2

theorem mem_seenBy {es : List (ℕ × ℕ)} {i : ℕ} {p : PeerId} :
    p ∈ seenBy es i ↔ ∃ j, Sees es i j ∧ peerId j = p := by
  simp only [seenBy, Sees, List.mem_map, List.mem_filter, decide_eq_true_eq]
  constructor
  · rintro ⟨⟨i', j⟩, ⟨he, rfl⟩, rfl⟩
    exact ⟨j, he, rfl⟩
  · rintro ⟨j, he, rfl⟩
    exact ⟨(i, j), ⟨he, rfl⟩, rfl⟩

/-- A peer that is seen is a node its sights lead to. -/
theorem sees_of_mem_seenBy {k : ℕ} (hk : k ≤ 256) {es : List (ℕ × ℕ)} (hes : ∀ e ∈ es, e ∈ sights k)
    {i : ℕ} {p : PeerId} (hp : p ∈ seenBy es i) : p.toNat < k ∧ Sees es i p.toNat := by
  obtain ⟨j, hj, rfl⟩ := mem_seenBy.mp hp
  have hlt := (mem_sights.mp (hes _ hj)).2.1
  rw [toNat_peerId (Nat.lt_of_lt_of_le hlt hk)]
  exact ⟨hlt, hj⟩

/-! ## What is kept -/

/-- The invariant of a run from a list of sights: besides what every run keeps, each node is a puller
among those it sees, what it indexes was given to a node its sights lead to, and what it believes a
peer to hold the peer indexes. -/
structure Joined (es : List (ℕ × ℕ)) (policy : Policy) (hwin : 1 ≤ policy.window)
    (held : ℕ → List Triple) (s : Sim) : Prop where
  kept : Kept policy hwin held s
  seen : ∀ e ∈ es, e ∈ sights s.k
  asked : ∀ i p, .resp i (.peerSeen p) ∉ s.queue
  watched : ∀ i < s.k, ∃ w, Watches (among policy hwin (seenBy es i) (held i)) s i w
  led : ∀ i < s.k, ∀ c ∈ (s.nodes i).index, ∃ j, Leads es i j ∧ c ∈ held j
  backed : ∀ i < s.k, ∀ c p, (s.nodes i).puller.m.Held c p → c ∈ (s.nodes p.toNat).index

section

variable {policy : Policy} {hwin : 1 ≤ policy.window} {held : ℕ → List Triple} {s : Sim}
  {i j : ℕ} {w : World Triple} {peers : List PeerId} {own : List Triple} {es : List (ℕ × ℕ)}

/-- The logs that a node pulls from hold what the nodes it sees index. -/
theorem Inv.logged_among (h : Inv policy hwin held s) (own : List Triple) (hw : Mirrors s i w)
    (hpeers : ∀ p ∈ peers, p.toNat < s.k) (c : Triple) :
    Logged (among policy hwin peers own) w c
      ↔ ∃ p ∈ peers, c ∈ (s.nodes p.toNat).index := by
  constructor
  · rintro ⟨k, hk, b, hb⟩
    have hp := ((Setting.mem_keys _ _).mp hk).1.1
    rw [hw.logs] at hb
    refine ⟨k.peer, hp, (h.filed _ (hpeers _ hp) c).mpr ⟨b, ?_⟩⟩
    rw [h.binned _ (hpeers _ hp) k.bin b c hb]
    exact hb
  · rintro ⟨p, hp, hc⟩
    obtain ⟨b, hb⟩ := (h.filed _ (hpeers p hp) c).mp hc
    obtain ⟨hbin, hrad⟩ := binOf_mem c
    refine ⟨⟨p, binOf c⟩, (Setting.mem_keys _ _).mpr ⟨⟨hp, hbin⟩, hrad⟩, b, ?_⟩
    rw [hw.logs]
    exact hb

/-- What a node is delivered is in the index of a node it sees. -/
theorem Watches.delivered_seen (h : Watches (among policy hwin peers own) s i w)
    (hinv : Inv policy hwin held s) (hpeers : ∀ p ∈ peers, p.toNat < s.k) {ev : Event Triple}
    (hm : .resp i ev ∈ s.queue) {c : Triple} (hc : c ∈ delivered ev) :
    ∃ p ∈ peers, c ∈ (s.nodes p.toNat).index := by
  cases ev with
  | fetchResult p b outcomes =>
    have hpend : .fetch p b (outcomes.map (·.1)) ∈ w.pending :=
      h.mirrors.pending_of_carries hm (by simp) (by simp [Msg.carries, answers])
    have hwant : c ∈ outcomes.map (·.1) := by
      obtain ⟨e, he, rfl⟩ := List.mem_map.mp hc
      exact List.mem_map.mpr ⟨e, (List.mem_filter.mp he).1, rfl⟩
    exact (hinv.logged_among own h.mirrors hpeers c).mp
      (h.sound.covered.logged_of_wanted h.sound.account hpend hwant)
  | _ => cases hc

/-- Nobody is told of a peer by a message. -/
theorem asked_deliver {m : Msg} (h : ∀ i p, .resp i (.peerSeen p) ∉ s.queue) (draws : List Bool) :
    ∀ i p, .resp i (.peerSeen p) ∉ (s.deliver draws m).queue := by
  intro i p hmem
  cases m with
  | req sender eff =>
    cases eff with
    | offer q bin start =>
      rw [deliver] at hmem
      dsimp only at hmem
      split at hmem
      · refine (List.mem_append.mp hmem).elim (h i p) ?_
        simp [offerResponse]
      · exact h i p hmem
    | settled q bin upto => exact h i p hmem
    | _ => exact (List.mem_append.mp hmem).elim (h i p) (by simp)
  | resp r ev =>
    obtain ⟨news, hq, hnews⟩ := queue_response s draws r ev
    rw [hq] at hmem
    exact (List.mem_append.mp hmem).elim (h i p) fun hm => hnews _ hm

/-- What a message that is delivered changes of the indexes. -/
theorem index_deliver (s : Sim) (draws : List Bool) (m : Msg) (j : ℕ) (c : Triple) :
    c ∈ ((s.deliver draws m).nodes j).index ↔ c ∈ (s.nodes j).index
      ∨ ∃ ev, m = .resp j ev ∧ c ∈ delivered ev := by
  cases m with
  | req i eff =>
    rw [((request_frame s draws i eff).2 j).2]
    simp
  | resp i ev =>
    have hstores : ∀ cs : List Triple, ∀ s : Sim,
        (c ∈ ((cs.foldl (fun s c => s.store i c) s).nodes j).index
          ↔ c ∈ (s.nodes j).index ∨ j = i ∧ c ∈ cs) := by
      intro cs
      induction cs with
      | nil => simp
      | cons d cs ih =>
        intro s
        rw [List.foldl_cons, ih, (store_frame s i d).2.2, List.mem_cons]
        grind
    rw [deliver, hstores, feed_frame SimNode.index (fun _ _ => rfl)]
    refine or_congr_right ⟨?_, ?_⟩
    · rintro ⟨rfl, hc⟩
      exact ⟨ev, rfl, hc⟩
    · rintro ⟨ev', hm, hc⟩
      obtain ⟨rfl, rfl⟩ := Msg.resp.inj hm
      exact ⟨rfl, hc⟩

/-- What a node that is told something believes a peer to hold, the peer indexes. -/
theorem Watches.backed {ev : Event Triple}
    (h : Watches (among policy hwin peers own) (s.post [.resp i ev]) i w)
    (hinv : Inv policy hwin held (s.post [.resp i ev])) (hpeers : ∀ p ∈ peers, p.toNat < s.k)
    (hpeer : ∀ p, ev = .peerSeen p → p ∈ peers)
    (hb : ∀ c p, (s.nodes i).puller.m.Held c p → c ∈ (s.nodes p.toNat).index) (c : Triple)
    (p : PeerId) (hc : ((s.feed i ev).nodes i).puller.m.Held c p) :
    c ∈ (s.nodes p.toNat).index := by
  obtain ⟨mv, rfl, ha, hf⟩ := hinv.fits own h.mirrors hpeer
  rw [← (h.feed ha hf).mirrors.node] at hc
  rcases held_move h.sound hf rfl hc with hc | ⟨k, hk, rfl, b, hlog⟩
  · rw [h.mirrors.node] at hc
    exact hb c p hc
  · have hp := hpeers _ ((Setting.mem_keys _ _).mp hk).1.1
    rw [h.mirrors.logs] at hlog
    refine (hinv.filed _ hp c).mpr ⟨b, ?_⟩
    rw [hinv.binned _ hp k.bin b c hlog]
    exact hlog

theorem Joined.step (h : Joined es policy hwin held s) (idx : ℕ) (draws : List Bool) :
    Joined es policy hwin held (s.step idx draws) ∧ Onward s (s.step idx draws) := by
  obtain ⟨hkept, hon⟩ := h.kept.step idx draws
  have hpeers : ∀ i, ∀ p ∈ seenBy es i, p.toNat < s.k ∧ Sees es i p.toNat := fun i p hp =>
    sees_of_mem_seenBy h.kept.inv.few h.seen hp
  refine ⟨⟨hkept, hon.k ▸ h.seen, ?_, fun i hi => ?_, fun i hi c hc => ?_,
    fun i hi c p hc => ?_⟩, hon⟩
  · rw [Sim.step]
    split
    · exact h.asked
    · next m hm =>
      refine asked_deliver (fun i p hmem => h.asked i p ?_) draws
      exact (swapRemove_perm hm).subset (List.mem_cons_of_mem _ hmem)
  · obtain ⟨w, hw⟩ := h.watched i (hon.k ▸ hi)
    exact hw.step h.kept.inv (h.asked i) idx draws
  · rw [hon.k] at hi
    rw [Sim.step] at hc
    split at hc
    · exact h.led i hi c hc
    · next m hm =>
      rcases (index_deliver _ draws m i c).mp hc with hc | ⟨ev, rfl, hdeliv⟩
      · exact h.led i hi c hc
      · obtain ⟨w, hw⟩ := h.watched i hi
        obtain ⟨p, hp, hx⟩ := hw.delivered_seen h.kept.inv (fun p hp => (hpeers i p hp).1)
          (List.mem_of_getElem? hm) hdeliv
        obtain ⟨j, hj, hd⟩ := h.led _ (hpeers i p hp).1 c hx
        exact ⟨j, .head (hpeers i p hp).2 hj, hd⟩
  · rw [hon.k] at hi
    rw [Sim.step] at hc ⊢
    split at hc
    · exact h.backed i hi c p hc
    · next m hm =>
      refine (index_deliver _ draws m _ c).mpr (.inl ?_)
      cases m with
      | req r eff =>
        rw [((request_frame _ draws r eff).2 i).1] at hc
        exact h.backed i hi c p hc
      | resp r ev =>
        rw [deliver, puller_stores] at hc
        by_cases hir : i = r
        · subst hir
          obtain ⟨w, hw⟩ := h.watched i hi
          refine (hw.take hm).backed (s := { s with queue := swapRemove s.queue idx })
            (h.kept.inv.take hm) (fun p hp => (hpeers i p hp).1) (fun q hq => ?_) (h.backed i hi)
            c p hc
          exact absurd (hq ▸ List.mem_of_getElem? hm) (h.asked i q)
        · rw [puller_feed, if_neg hir] at hc
          exact h.backed i hi c p hc

/-! ## Uploads -/

/-- What one node is told it holds does not concern the others. -/
theorem Watches.preload {S : Setting Triple} (h : Watches S s j w) (hij : j ≠ i) (c : Triple) :
    Watches S (s.preload i c) j w where
  sound := h.sound
  met := h.met
  mirrors := h.mirrors.preload_ne hij c

/-- A node that is told it holds what no peer logs moves as its world does. -/
theorem Watches.upload (h : Watches (among policy hwin peers own) s i w) {c : Triple}
    (hlogged : ¬ Logged (among policy hwin peers own) w c) (hnew : c ∉ w.node.m.got) :
    Watches (among policy hwin peers (own ++ [c])) (s.preload i c) i (w.upload c) where
  sound := h.sound.upload hlogged hnew Bool.false_ne_true
  met := fun d p hp => h.met d p
    ((congrFun₂ (w.node.m.preload_frame c).2.2.2.2.1 d p).mp hp)
  mirrors := h.mirrors.upload c

theorem Joined.arrive (h : Joined es policy hwin held s) (hi : i < s.k) {c : Triple}
    (hc : s.Unknown c) :
    Joined es policy hwin (Function.update held i (held i ++ [c])) (s.arrive i c)
      ∧ Onward s (s.arrive i c) := by
  obtain ⟨hkept, hon⟩ := h.kept.arrive hi hc
  have hi' : i < 256 := Nat.lt_of_lt_of_le hi h.kept.inv.few
  have hheld : ∀ j d p, ((s.arrive i c).nodes j).puller.m.Held d p →
      (s.nodes j).puller.m.Held d p := fun j d p hd => by
    rw [Sim.arrive, (store_frame _ i c).2.1, preload, nodes_setNode] at hd
    split at hd
    · next hj =>
      rw [hj]
      exact (congrFun₂ ((s.nodes i).puller.m.preload_frame c).2.2.2.2.1 d p).mp hd
    · exact hd
  refine ⟨⟨hkept, hon.k ▸ h.seen, fun j p hmem => ?_, fun j hj => ?_, fun j hj d hd => ?_,
    fun j hj d p hd => ?_⟩, hon⟩
  · obtain ⟨news, hq, hnews⟩ := queue_stores (s.preload i c) i [c]
    change _ ∈ ([c].foldl (fun s c => s.store i c) (s.preload i c)).queue at hmem
    rw [hq] at hmem
    exact (List.mem_append.mp hmem).elim (h.asked j p) fun hm => hnews _ hm
  · rw [hon.k] at hj
    obtain ⟨w, hw⟩ := h.watched j hj
    by_cases hji : j = i
    · subst hji
      have hpeers : ∀ p ∈ seenBy es j, p.toNat < s.k := fun p hp =>
        (sees_of_mem_seenBy h.kept.inv.few h.seen hp).1
      have hlogged : ¬ Logged (among policy hwin (seenBy es j) (held j)) w c := fun hl => by
        obtain ⟨p, hp, hx⟩ := (h.kept.inv.logged_among (held j) hw.mirrors hpeers c).mp hl
        exact hc _ (hpeers p hp) hx
      have hnew : c ∉ w.node.m.got := by
        rw [hw.mirrors.node, ← h.kept.stored j hj c]
        exact hc j hj
      rw [Function.update_self]
      exact (hw.upload hlogged hnew).store hi' c
    · rw [Function.update_of_ne hji]
      exact (hw.preload hji c).store hi' c
  · rw [hon.k] at hj
    rw [Sim.arrive, (store_frame _ i c).2.2, preload_frame SimNode.index fun _ _ => rfl] at hd
    rcases hd with hd | ⟨rfl, rfl⟩
    · obtain ⟨j', hl, hd⟩ := h.led j hj d hd
      refine ⟨j', hl, ?_⟩
      by_cases hji : j' = i
      · subst hji
        rw [Function.update_self]
        exact List.mem_append_left _ hd
      · rwa [Function.update_of_ne hji]
    · exact ⟨j, .refl, by simp⟩
  · rw [Sim.arrive, (store_frame _ i c).2.2, preload_frame SimNode.index fun _ _ => rfl]
    exact .inl (h.backed j (hon.k ▸ hj) d p (hheld j d p hd))

/-- What lands at a node is added to what it was given. -/
theorem held_arrive (held : ℕ → List Triple) (i : ℕ) (c : Triple) (acts : List Act) :
    (fun j => held j ++ arrivalsOf (.arrive i c :: acts) j)
      = fun j => Function.update held i (held i ++ [c]) j ++ arrivalsOf acts j := funext fun j => by
  by_cases hj : j = i
  · subst hj
    simp [arrivalsOf]
  · simp [arrivalsOf, hj, Ne.symm hj]

theorem Joined.run (acts : List Act) {held : ℕ → List Triple} {s : Sim}
    (h : Joined es policy hwin held s) (hf : s.Fresh acts) :
    Joined es policy hwin (fun i => held i ++ arrivalsOf acts i) (s.run acts)
      ∧ Onward s (s.run acts) := by
  induction acts generalizing s held with
  | nil =>
    simp only [arrivalsOf, List.filterMap_nil, List.append_nil]
    exact ⟨h, .refl s⟩
  | cons a acts ih =>
    cases a with
    | arrive i c =>
      obtain ⟨hi, hc⟩ := hf.1 i c rfl
      obtain ⟨hone, hon⟩ := h.arrive hi hc
      obtain ⟨hrest, hon'⟩ := ih hone hf.2
      rw [held_arrive]
      exact ⟨hrest, hon.trans hon'⟩
    | step idx draws =>
      obtain ⟨hone, hon⟩ := h.step idx draws
      obtain ⟨hrest, hon'⟩ := ih hone hf.2
      exact ⟨hrest, hon.trans hon'⟩

/-! ## The start -/

/-- A node that sees a peer of the list keeps the invariant. -/
theorem Joined.sees (h : Joined es policy hwin held s) {e : ℕ × ℕ} (he : e ∈ es) :
    Joined es policy hwin held (s.feed e.1 (.peerSeen (peerId e.2))) := by
  have hquiet : ¬ endsInRound (.peerSeen (peerId e.2) : Event Triple) := Bool.false_ne_true
  refine ⟨h.kept.sees (h.seen e he), h.seen, fun i p hmem => ?_, fun j hj => ?_, fun j hj c hc => ?_,
    fun j hj c p hc => ?_⟩
  · refine (List.mem_append.mp hmem).elim (h.asked i p) fun hm => ?_
    obtain ⟨fx, -, hfx⟩ := List.mem_map.mp hm
    cases hfx
  · obtain ⟨w, hw⟩ := h.watched j hj
    have hpost : Watches (among policy hwin (seenBy es j) (held j))
        (s.post [.resp e.1 (.peerSeen (peerId e.2))]) j w :=
      ⟨hw.sound, hw.met, hw.mirrors.congr rfl (fun _ => rfl) fun fx _ => by
        rw [outstanding_post]
        simp [Msg.carries, answers]⟩
    by_cases hij : e.1 = j
    · subst hij
      have hseen : peerId e.2 ∈ seenBy es e.1 := mem_seenBy.mpr ⟨e.2, he, rfl⟩
      exact ⟨_, @Watches.feed _ _ _ _ (.peerSeen (peerId e.2)) hpost rfl hseen⟩
    · exact ⟨w, hpost.feed_ne hij⟩
  · rw [feed_frame SimNode.index (fun _ _ => rfl)] at hc
    exact h.led j hj c hc
  · rw [feed_frame SimNode.index (fun _ _ => rfl)]
    refine h.backed j hj c p ?_
    rw [puller_feed] at hc
    split at hc
    · next hje => rwa [(quiet_handle _ hquiet).m, ← hje] at hc
    · exact hc

/-- Once started, every node has those it sees for peers. -/
theorem Joined.start (h : Joined es policy hwin held s) :
    Joined es policy hwin held (s.startWith es) ∧ Onward s (s.startWith es)
      ∧ ∀ e ∈ es, peerId e.2 ∈ ((s.startWith es).nodes e.1).puller.peers := by
  have hfold : ∀ l : List (ℕ × ℕ), ∀ s : Sim, (∀ e ∈ l, e ∈ es) → Joined es policy hwin held s →
      Joined es policy hwin held (s.startWith l) ∧ Onward s (s.startWith l)
        ∧ ∀ e ∈ l, peerId e.2 ∈ ((s.startWith l).nodes e.1).puller.peers := by
    intro l
    induction l with
    | nil => exact fun s _ h => ⟨h, .refl s, by rintro e ⟨⟩⟩
    | cons e l ih =>
      intro s hl h
      obtain ⟨hrest, hon, hseen⟩ := ih (s.feed e.1 (.peerSeen (peerId e.2)))
        (fun d hd => hl d (List.mem_cons_of_mem _ hd)) (h.sees (hl e List.mem_cons_self))
      refine ⟨hrest, (onward_feed s e.1 (by simp)).trans hon, fun d hd => ?_⟩
      rcases List.mem_cons.mp hd with rfl | hd
      · exact hon.peers _ _ (mem_peers_sees s _ _)
      · exact hseen d hd
  exact hfold es s (fun _ he => he) h

/-- A puller that has not started holds nobody for a source. -/
theorem not_held_start (policy : Policy) (held : List Triple) (c : Triple) (p : PeerId) :
    ¬ (Node.start Config.production radius policy held).m.Held c p := by
  change ¬ setContains (Node.start Config.production radius policy held).m.holders c p = true
  rw [(start_machine_frame Config.production radius policy held).2.2.1]
  simp [setContains]

/-- A seeded neighbourhood keeps the invariant, whoever is to see whom. -/
theorem Seeded.joined {k : ℕ} (hwin : 1 ≤ policy.window) (h : Seeded k policy held s) (hk : k ≤ 256)
    (hes : ∀ e ∈ es, e ∈ sights k) : Joined es policy hwin held s where
  kept := h.kept hwin hk
  seen := h.k ▸ hes
  asked i p := by
    rw [h.queue]
    rintro ⟨⟩
  watched i hi := by
    refine ⟨World.init (among policy hwin (seenBy es i) (held i))
      (fun k => (s.nodes k.peer.toNat).log k.bin) 0 0 0, sound_init _ _ _ _ _,
      fun c p hp => absurd hp (not_held_start policy _ c p),
      (h.planted i).puller.symm, fun _ => rfl, fun fx _ => ?_⟩
    · rw [outstanding, h.queue]
      cases fx with
      | offer p b start => simp [parkedFor, (h.planted p.toNat).parked, World.init, World.pending,
          Shell.start]
      | _ => simp [parkedFor, World.init, World.pending, Shell.start]
  led i hi c hc := ⟨i, .refl, ((h.planted i).index c).mp hc⟩
  backed i hi c p hc := by
    rw [(h.planted i).puller] at hc
    exact absurd hc (not_held_start policy _ c p)

/-! ## The end -/

open Classical in
/-- What was given to the nodes that the sights of one lead to. -/
noncomputable def ledTo (es : List (ℕ × ℕ)) (k : ℕ) (held : ℕ → List Triple) (i : ℕ) :
    Finset Triple :=
  ((Finset.range k).filter (Leads es i)).biUnion fun j => (held j).toFinset

theorem mem_ledTo {es : List (ℕ × ℕ)} {k : ℕ} {held : ℕ → List Triple} {i : ℕ} {c : Triple} :
    c ∈ ledTo es k held i ↔ ∃ j < k, Leads es i j ∧ c ∈ held j := by
  simp [ledTo, and_assoc]

/-- The sights of a list lead to nodes only. -/
theorem lt_of_leads {k : ℕ} (hes : ∀ e ∈ es, e ∈ sights k) (hi : i < k) (h : Leads es i j) :
    j < k := by
  induction h with
  | refl => exact hi
  | tail _ hs _ => exact (mem_sights.mp (hes _ hs)).2.1

/-- With no message left, a node that has its peers is told nothing more. -/
theorem Watches.quiescent (h : Watches (among policy hwin peers own) s i w)
    (hinv : Inv policy hwin held s) (hq : s.queue = []) (hpeers : ∀ p ∈ peers, p.toNat < s.k)
    (hall : ∀ p ∈ peers, p ∈ (s.nodes i).puller.peers) :
    ∃ w, Sound (among policy hwin peers own) w ∧ Quiescent (among policy hwin peers own) w
      ∧ Mirrors s i w := by
  obtain ⟨⟨ha, hf, hc, hl, -, hn⟩, -, hw⟩ := h
  have hs : Sound (among policy hwin peers own) { w with unseen := [] } := by
    refine ⟨⟨ha.accounted, ha.cfg, ha.wanted, ha.batches, ha.opens, ha.starts⟩,
      ⟨hf.radius, fun p hp => .inr ?_, hf.asked, hf.listed, hf.keys, hf.opened, hf.paced⟩,
      ⟨hc.tracks, hc.stuck, hc.held, hc.arrived, hc.known, hc.windowed, hc.preloaded, hc.stored,
        hc.rejected⟩, hl, by rintro p ⟨⟩, hn⟩
    rw [show World.node { w with unseen := [] } = (s.nodes i).puller from hw.node]
    exact hall p hp
  have hpend : ∀ fx, (∀ p b upto, fx ≠ .settled p b upto) → fx ∈ w.pending →
      0 < s.parkedFor i fx := fun fx hfx hp => by
    have hpos := (hw.mem_pending hfx).mp hp
    rwa [outstanding, hq, List.countP_nil, Nat.zero_add] at hpos
  refine ⟨_, hs, fun w' hr => ?_, hw.node, hw.logs, hw.pending⟩
  cases hr with
  | announce hp => cases hp
  | cursors hp => exact absurd (hpend _ (by simp) hp) (Nat.lt_irrefl 0)
  | fetch hp hperm hbad hmissed => exact absurd (hpend _ (by simp) hp) (Nat.lt_irrefl 0)
  | @offer k start limit hp hpage =>
    -- what is parked starts past the head, and its page is empty
    have hmem : (i, k.bin, start) ∈ (s.nodes k.peer.toNat).parked :=
      List.count_pos_iff.mp (hpend _ (by simp) hp)
    have hkey := (hf.keys _ (hf.mem_logs ha hp)).1
    have hlt := (hinv.parked _ (hpeers _ ((Setting.mem_keys _ _).mp hkey).1.1) _ hmem).2
    obtain ⟨e, he⟩ := List.exists_mem_of_ne_nil _ hpage
    obtain ⟨hin, hle⟩ := AppendLog.mem_of_mem_page he
    have hhead := (w.logs k).le_head hin
    rw [hw.logs] at hhead
    exact absurd (hle.trans hhead) (Nat.not_le_of_lt hlt)

/-- With no message left, a node indexes what was given to those its sights lead to, misses nothing,
and was delivered once what it was not given. -/
theorem Joined.complete (h : Joined es policy hwin held s) (hq : s.queue = [])
    (hall : ∀ e ∈ es, peerId e.2 ∈ (s.nodes e.1).puller.peers) (hi : i < s.k) :
    (∀ c, c ∈ (s.nodes i).index ↔ c ∈ ledTo es s.k held i) ∧ s.deficit i = 0
      ∧ s.deliveries i = (ledTo es s.k held i \ (held i).toFinset).card := by
  have hpeers : ∀ i, ∀ p ∈ seenBy es i, p.toNat < s.k ∧ Sees es i p.toNat := fun i p hp =>
    sees_of_mem_seenBy h.kept.inv.few h.seen hp
  have hquiet : ∀ i < s.k, ∃ w, Sound (among policy hwin (seenBy es i) (held i)) w
      ∧ Quiescent (among policy hwin (seenBy es i) (held i)) w ∧ Mirrors s i w := fun i hi => by
    obtain ⟨w, hw⟩ := h.watched i hi
    refine hw.quiescent h.kept.inv hq (fun p hp => (hpeers i p hp).1) fun p hp => ?_
    obtain ⟨j, hj, rfl⟩ := mem_seenBy.mp hp
    exact hall _ hj
  have hpre : ∀ i < s.k, ∀ c ∈ held i, c ∈ (s.nodes i).index := fun i hi c hc => by
    obtain ⟨w, hs, -, hw⟩ := hquiet i hi
    rw [h.kept.stored i hi, ← hw.node]
    exact hs.covered.preloaded c hc
  -- what a node sees indexed it indexes, and so along any chain of sights
  have hsees : ∀ i < s.k, ∀ j, Sees es i j → ∀ c ∈ (s.nodes j).index, c ∈ (s.nodes i).index :=
    fun i hi j hj c hc => by
      obtain ⟨w, hs, hqu, hw⟩ := hquiet i hi
      have hjk := (mem_sights.mp (h.seen _ hj)).2.1
      have hp : peerId j ∈ seenBy es i := mem_seenBy.mpr ⟨j, hj, rfl⟩
      have hlogged := (h.kept.inv.logged_among (held i) hw
        (fun p hp => (hpeers i p hp).1) c).mpr ⟨peerId j, hp, by
          rwa [toNat_peerId (Nat.lt_of_lt_of_le hjk h.kept.inv.few)]⟩
      rw [h.kept.stored i hi, ← hw.node]
      exact (hqu.settled hs hlogged).resolve_right fun hr =>
        Bool.false_ne_true (hs.covered.rejected c hr).1
  have hleads : ∀ i < s.k, ∀ j, Leads es i j → ∀ c ∈ held j, c ∈ (s.nodes i).index := by
    intro i hi j hl
    induction hl using Relation.ReflTransGen.head_induction_on with
    | refl => exact hpre j hi
    | head hs _ ih =>
      have hnext := (mem_sights.mp (h.seen _ hs)).2.1
      exact fun c hc => hsees _ hi _ hs c (ih hnext c hc)
  have hindex : ∀ c, c ∈ (s.nodes i).index ↔ c ∈ ledTo es s.k held i := fun c => by
    rw [mem_ledTo]
    constructor
    · intro hc
      obtain ⟨j, hl, hj⟩ := h.led i hi c hc
      exact ⟨j, lt_of_leads h.seen hi hl, hl, hj⟩
    · rintro ⟨j, -, hl, hj⟩
      exact hleads i hi j hl c hj
  obtain ⟨w, hs, hqu, hw⟩ := hquiet i hi
  have hconv := hqu.converged hs
  refine ⟨hindex, ?_, ?_⟩
  · rw [deficit, ← hw.node]
    exact hconv.deficit
  · have hfloor := hconv.deliveries
    rw [hw.node, size_eq_card fun c => mem_got_start _ _ _ _ c |>.trans List.mem_toFinset.symm,
      size_eq_card fun c => (h.kept.stored i hi c).symm.trans (hindex c)] at hfloor
    have hsub : (held i).toFinset ⊆ ledTo es s.k held i := fun c hc =>
      mem_ledTo.mpr ⟨i, hi, .refl, List.mem_toFinset.mp hc⟩
    rw [Finset.card_sdiff_of_subset hsub, deliveries]
    exact Nat.eq_sub_of_add_eq hfloor

/-- A seeded neighbourhood that starts from a list of sights and has no message left. -/
theorem Seeded.complete {k : ℕ} (hwin : 1 ≤ policy.window) (h : Seeded k policy held s)
    (hk : k ≤ 256) (hes : ∀ e ∈ es, e ∈ sights k) (acts : List Act)
    (hfresh : (s.startWith es).Fresh acts) (hdone : ((s.startWith es).run acts).queue = []) :
    let s' := (s.startWith es).run acts
    let held' := fun i => held i ++ arrivalsOf acts i
    (∀ i < k, (∀ c, s'.nodeHas i c ↔ c ∈ ledTo es k held' i) ∧ s'.deficit i = 0
        ∧ s'.deliveries i = (ledTo es k held' i \ (held' i).toFinset).card)
      ∧ ∑ i ∈ Finset.range k, s'.served i = ∑ i ∈ Finset.range k, s'.deliveries i := by
  intro s' held'
  obtain ⟨hstart, hon, hseen⟩ := (h.joined hwin hk hes).start
  obtain ⟨hrun, hon'⟩ := hstart.run acts hfresh
  have hkk : s'.k = k := (hon'.k.trans hon.k).trans h.k
  refine ⟨fun i hi => ?_, ?_⟩
  · obtain ⟨hindex, hdef, hdel⟩ := hrun.complete hdone
      (fun e he => hon'.peers _ _ (hseen e he)) (hi.trans_eq hkk.symm)
    rw [hkk] at hindex hdel
    refine ⟨fun c => ?_, hdef, hdel⟩
    rw [nodeHas, ← ExtTreeSet.mem_iff_contains]
    exact hindex c
  · have hserved := hrun.kept.inv.served
    rw [hdone, hkk] at hserved
    exact hserved

end

/-- From any list of sights, whatever is seeded, whatever lands that no node knows yet, whoever is
faulty and however the messages are ordered: once none is left each node indexes exactly what was
given to the nodes that its sights lead to, misses nothing, and was delivered once what it was not
given; and what was served is what was delivered. -/
theorem replication_led (k : ℕ) (hk : k ≤ 256) (byzantine : List ℕ) (policy : Policy)
    (hwin : 1 ≤ policy.window) (spuriousBudget : ℕ) (seeds : List (ℕ × Triple))
    (es : List (ℕ × ℕ)) (hes : ∀ e ∈ es, e.1 < k ∧ e.2 < k ∧ e.1 ≠ e.2) (acts : List Act)
    (hfresh : ((seeded k byzantine policy spuriousBudget seeds).startWith es).Fresh acts)
    (hdone : (((seeded k byzantine policy spuriousBudget seeds).startWith es).run acts).queue
      = []) :
    let s := ((seeded k byzantine policy spuriousBudget seeds).startWith es).run acts
    let held := fun i => seedsOf seeds i ++ arrivalsOf acts i
    (∀ i < k, (∀ c, s.nodeHas i c ↔ c ∈ ledTo es k held i) ∧ s.deficit i = 0
        ∧ s.deliveries i = (ledTo es k held i \ (held i).toFinset).card)
      ∧ ∑ i ∈ Finset.range k, s.served i = ∑ i ∈ Finset.range k, s.deliveries i :=
  (seeded_spec k byzantine policy spuriousBudget seeds).complete hwin hk
    (fun e he => mem_sights.mpr (hes e he)) acts hfresh hdone

/-- A chain of three: the last node is seen by the middle one only. -/
theorem replication_led_chain :
    let seeds := [(0, Triple.mock 1), (2, Triple.mock 2)]
    let es := [(0, 1), (1, 2)]
    let acts := List.replicate 40 (.step 0 [])
    let s := ((seeded 3 [] Policy.shipped 0 seeds).startWith es).run acts
    let held := fun i => seedsOf seeds i ++ arrivalsOf acts i
    (∀ i < 3, (∀ c, s.nodeHas i c ↔ c ∈ ledTo es 3 held i) ∧ s.deficit i = 0
        ∧ s.deliveries i = (ledTo es 3 held i \ (held i).toFinset).card)
      ∧ ∑ i ∈ Finset.range 3, s.served i = ∑ i ∈ Finset.range 3, s.deliveries i := by
  intro seeds es acts
  have hfresh : ((seeded 3 [] Policy.shipped 0 seeds).startWith es).Fresh acts := by decide +kernel
  have hdone : (((seeded 3 [] Policy.shipped 0 seeds).startWith es).run acts).queue = [] := by
    decide +kernel
  exact replication_led 3 (by decide) [] Policy.shipped (by decide) 0 seeds es (by decide) acts
    hfresh hdone

/-- In a ring with a fanout of at least one and short of its size, every node that has no message
left to wait for indexes all that the nodes were given, having been delivered each triple once. -/
theorem replication_ring (k : ℕ) (hk : k ≤ 256) (fanout : ℕ) (h1 : 1 ≤ fanout) (hf : fanout < k)
    (byzantine : List ℕ) (policy : Policy) (hwin : 1 ≤ policy.window) (spuriousBudget : ℕ)
    (seeds : List (ℕ × Triple)) (acts : List Act)
    (hfresh : ((seeded k byzantine policy spuriousBudget seeds).startRing fanout).Fresh acts)
    (hdone : (((seeded k byzantine policy spuriousBudget seeds).startRing fanout).run acts).queue
      = []) :
    let s := ((seeded k byzantine policy spuriousBudget seeds).startRing fanout).run acts
    let held := fun i => seedsOf seeds i ++ arrivalsOf acts i
    (∀ i < k, (∀ c, s.nodeHas i c ↔ c ∈ given k held) ∧ s.deficit i = 0
        ∧ s.deliveries i = (given k held \ (held i).toFinset).card)
      ∧ ∑ i ∈ Finset.range k, s.served i = ∑ i ∈ Finset.range k, s.deliveries i := by
  have hseeded := seeded_spec k byzantine policy spuriousBudget seeds
  rw [startRing_eq, hseeded.k] at hfresh hdone ⊢
  obtain ⟨hend, hserved⟩ := hseeded.complete hwin hk (fun _ => ringSights_sights hf) acts hfresh hdone
  have hled : ∀ (held : ℕ → List Triple) (i : ℕ), i < k →
      ledTo (ringSights k fanout) k held i = given k held := fun held i hi => by
    ext c
    rw [mem_ledTo, mem_given]
    exact exists_congr fun j => and_congr_right fun hj => and_iff_right (leads_ring h1 hi hj)
  refine ⟨fun i hi => ?_, hserved⟩
  have hi' := hend i hi
  rwa [hled _ i hi] at hi'

theorem replication_ring_four :
    let seeds := [(0, Triple.mock 1), (2, Triple.mock 2)]
    let acts := List.replicate 120 (.step 0 [])
    let s := ((seeded 4 [] Policy.shipped 0 seeds).startRing 1).run acts
    let held := fun i => seedsOf seeds i ++ arrivalsOf acts i
    (∀ i < 4, (∀ c, s.nodeHas i c ↔ c ∈ given 4 held) ∧ s.deficit i = 0
        ∧ s.deliveries i = (given 4 held \ (held i).toFinset).card)
      ∧ ∑ i ∈ Finset.range 4, s.served i = ∑ i ∈ Finset.range 4, s.deliveries i := by
  intro seeds acts
  have hfresh : ((seeded 4 [] Policy.shipped 0 seeds).startRing 1).Fresh acts := by decide +kernel
  have hdone : (((seeded 4 [] Policy.shipped 0 seeds).startRing 1).run acts).queue = [] := by
    decide +kernel
  exact replication_ring 4 (by decide) 1 (by decide) (by decide) [] Policy.shipped (by decide) 0
    seeds acts hfresh hdone

end Melissi.Sim
