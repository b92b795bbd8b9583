import Melissi.Sim.Mirror

/-!
# What every run of the neighbourhood keeps

Each node is a sound puller among its peers; every answer in flight is one its peer could give now;
parked offers wait past the head; the index is what the logs hold; and every delivery served was
counted by its puller or is on its way.
-/

namespace Melissi.Sim

open Melissi.Common Melissi.Machine Melissi.Settlement Melissi.Node Melissi.Puller
open Std (ExtTreeMap ExtTreeSet)

/-- A message is to or from a node, and an answer is one that can still be given. -/
def Proper (s : Sim) : Msg → Prop
  | .req sender _ => sender < s.k
  | .resp receiver (.peerSeen p) => receiver < s.k ∧ p ∈ peersOf s.k receiver
  | .resp receiver (.cursorsResult _ cs) => receiver < s.k ∧ cs.map (·.1) = bins
  | .resp receiver (.offerResult p b start refs topmost) => receiver < s.k ∧
      ∃ limit, ((s.nodes p.toNat).log b).page start limit ≠ []
        ∧ refs = ((s.nodes p.toNat).log b).page start limit
        ∧ topmost = AppendLog.topmost (((s.nodes p.toNat).log b).page start limit)
  | .resp receiver (.fetchResult _ _ outcomes) =>
      receiver < s.k ∧ ∀ e ∈ outcomes, e.2 ≠ .rejected
  | .resp _ _ => False

/-- Logs that keep their pages keep every message proper. -/
theorem Proper.mono {s s' : Sim} {m : Msg} (h : Proper s m) (hk : s'.k = s.k)
    (hp : ∀ j bin start limit, ∃ limit',
      ((s'.nodes j).log bin).page start limit' = ((s.nodes j).log bin).page start limit) :
    Proper s' m := by
  cases m with
  | req sender eff => exact Nat.lt_of_lt_of_eq h hk.symm
  | resp receiver ev =>
    cases ev with
    | offerResult p b start refs topmost =>
      obtain ⟨hr, limit, hne, href, htop⟩ := h
      obtain ⟨limit', hpage⟩ := hp p.toNat b start limit
      exact ⟨hk ▸ hr, limit', by rwa [hpage], by rwa [hpage], by rwa [hpage]⟩
    | peerSeen p => exact ⟨hk ▸ h.1, hk ▸ h.2⟩
    | cursorsResult p cs => exact ⟨hk ▸ h.1, h.2⟩
    | fetchResult p b outcomes => exact ⟨hk ▸ h.1, h.2⟩
    | peerGone p => exact h
    | tick => exact h

/-- The deliveries a message brings. -/
def inFlight : Msg → ℕ
  | .req _ _ => 0
  | .resp _ ev => (delivered ev).length

structure Inv (policy : Policy) (hwin : 1 ≤ policy.window) (held : ℕ → List Triple) (s : Sim) :
    Prop where
  few : s.k ≤ 256
  sees : ∀ i < s.k, ∃ w, Sound (setting s.k policy hwin i (held i)) w
    ∧ Met (setting s.k policy hwin i (held i)) w ∧ Mirrors s i w
  proper : ∀ m ∈ s.queue, Proper s m
  parked : ∀ j < s.k, ∀ e ∈ (s.nodes j).parked, e.1 < s.k ∧ (s.nodes j).head e.2.1 < e.2.2
  /-- The index is what the logs hold, each triple in its bin. -/
  filed : ∀ i < s.k, ∀ c, c ∈ (s.nodes i).index ↔
    ∃ b, (b, c) ∈ ((s.nodes i).log (binOf c)).entries
  binned : ∀ i < s.k, ∀ bin b c, (b, c) ∈ ((s.nodes i).log bin).entries → binOf c = bin
  known : ∀ i < s.k, ∀ c ∈ (s.nodes i).index, ∃ j < s.k, c ∈ held j
  /-- Every delivery served was counted or is in flight. -/
  served : ∑ i ∈ Finset.range s.k, s.served i
    = ∑ i ∈ Finset.range s.k, (s.nodes i).puller.m.ndeliv + (s.queue.map inFlight).sum

/-- A sum that changes at one place. -/
theorem sum_change {f g : ℕ → ℕ} {k i d : ℕ} (hi : i < k) (hgi : g i = f i + d)
    (hne : ∀ j, j ≠ i → g j = f j) :
    ∑ j ∈ Finset.range k, g j = ∑ j ∈ Finset.range k, f j + d := by
  have hmem := Finset.mem_range.mpr hi
  have hg := Finset.add_sum_erase _ (fun j => g j) hmem
  have hf := Finset.add_sum_erase _ (fun j => f j) hmem
  have hrest : ∑ j ∈ (Finset.range k).erase i, g j = ∑ j ∈ (Finset.range k).erase i, f j :=
    Finset.sum_congr rfl fun j hj => hne j (Finset.ne_of_mem_erase hj)
  omega

section

variable {policy : Policy} {hwin : 1 ≤ policy.window} {held : ℕ → List Triple} {s : Sim} {i : ℕ}

/-- A change that moves messages about, and leaves every node's puller, index and logs alone, keeps
the invariant if it leaves the same outstanding. -/
theorem Inv.reroute (h : Inv policy hwin held s) {s' : Sim} (hk : s'.k = s.k)
    (hp : ∀ j, (s'.nodes j).puller = (s.nodes j).puller)
    (hl : ∀ j, (s'.nodes j).log = (s.nodes j).log)
    (hx : ∀ j, (s'.nodes j).index = (s.nodes j).index)
    (ho : ∀ i fx, (∀ p b upto, fx ≠ .settled p b upto) → s'.outstanding i fx = s.outstanding i fx)
    (hproper : ∀ m ∈ s'.queue, Proper s m)
    (hparked : ∀ j < s.k, ∀ e ∈ (s'.nodes j).parked, e.1 < s.k ∧ (s.nodes j).head e.2.1 < e.2.2)
    (hserved : ∑ j ∈ Finset.range s.k, s'.served j + (s.queue.map inFlight).sum
      = ∑ j ∈ Finset.range s.k, s.served j + (s'.queue.map inFlight).sum) :
    Inv policy hwin held s' := by
  refine ⟨hk ▸ h.few, fun i hi => ?_, fun m hm => ?_, fun j hj => ?_, fun j hj => ?_, fun j hj => ?_,
    fun j hj => ?_, ?_⟩
  · obtain ⟨w, hs, hm, hw⟩ := h.sees i (hk ▸ hi)
    rw [hk]
    exact ⟨w, hs, hm, hw.congr (hp i) hl (ho i)⟩
  · exact (hproper m hm).mono hk fun j bin start limit => ⟨limit, by rw [hl]⟩
  · rw [hk] at hj ⊢
    simp only [SimNode.head, hl]
    exact hparked j hj
  · simp only [hx, hl]
    exact h.filed j (hk ▸ hj)
  · simp only [hl]
    exact h.binned j (hk ▸ hj)
  · rw [hk] at hj ⊢
    simp only [hx]
    exact h.known j hj
  · have hold := h.served
    simp only [hk, hp]
    omega

/-- The order of the messages plays no part. -/
theorem Inv.perm (h : Inv policy hwin held s) {queue : List Msg} (hq : queue.Perm s.queue) :
    Inv policy hwin held { s with queue := queue } := by
  refine h.reroute rfl (fun _ => rfl) (fun _ => rfl) (fun _ => rfl) (fun i fx _ => ?_)
    (fun m hm => h.proper m (hq.subset hm)) h.parked (congrArg _ (hq.map inFlight).sum_nat.symm)
  have hparked : parkedFor { s with queue := queue } i fx = s.parkedFor i fx := by
    cases fx <;> rfl
  rw [outstanding, outstanding, hparked]
  exact congrArg (· + _) (hq.countP_eq _)

/-- The message taken out of the queue is the last one of a run that ends the same. -/
theorem Inv.take (h : Inv policy hwin held s) {idx : ℕ} {m : Msg} (hm : s.queue[idx]? = some m) :
    Inv policy hwin held (({ s with queue := swapRemove s.queue idx } : Sim).post [m]) :=
  h.perm ((List.perm_append_singleton m _).trans (swapRemove_perm hm))

/-! ## Responses -/

/-- The deliveries of a response are those its move has outcomes for. -/
theorem delivered_event (mv : Move Triple) :
    (delivered mv.event).length = mv.outcomes.countP (fun e => e.2 = .delivered)
      ∧ ∀ c, c ∈ delivered mv.event ↔ (c, .delivered) ∈ mv.outcomes := by
  cases mv with
  | fetch p b want outcomes =>
    simp [Move.event, Move.outcomes, delivered, List.countP_eq_length_filter]
  | _ => simp [Move.event, Move.outcomes, delivered]

variable (hwin held) in
/-- A proper response is a move of the puller it goes to. -/
theorem Proper.fits {w : World Triple} {ev : Event Triple} (hp : Proper s (.resp i ev))
    (hw : Mirrors s i w) (hm : .resp i ev ∈ s.queue) :
    ∃ mv : Move Triple, mv.event = ev ∧ answers mv.event = mv.answered
      ∧ Fits (setting s.k policy hwin i (held i)) w mv := by
  have hpend : ∀ fx, (∀ p b upto, fx ≠ .settled p b upto) → answers ev = some fx →
      fx ∈ w.pending := fun fx hfx ha =>
    hw.pending_of_carries hm hfx (by simp [Msg.carries, ha])
  cases ev with
  | peerSeen p => exact ⟨.peerSeen p, rfl, rfl, hp.2⟩
  | cursorsResult p cs =>
    exact ⟨.cursors p cs, rfl, rfl, hpend _ (by simp) rfl, hp.2⟩
  | offerResult p b start refs topmost =>
    obtain ⟨-, limit, hne, href, htop⟩ := hp
    refine ⟨.offer p b start refs topmost, rfl, rfl, hpend _ (by simp) rfl, limit, ?_⟩
    rw [hw.logs]
    exact ⟨hne, href, htop⟩
  | fetchResult p b outcomes =>
    refine ⟨.fetch p b (outcomes.map (·.1)) outcomes, rfl, rfl, hpend _ (by simp) rfl, .refl _,
      fun e he => iff_of_false (hp.2 e he) (by simp [setting])⟩
  | peerGone p => exact hp.elim
  | tick => exact hp.elim

/-- A puller that is told what it asked for keeps the invariant, and it is told what it stores. -/
theorem Inv.feed {ev : Event Triple} (h : Inv policy hwin held (s.post [.resp i ev])) :
    Inv policy hwin held (s.feed i ev)
      ∧ ∀ c, c ∈ ((s.feed i ev).nodes i).puller.m.got ↔
        c ∈ (s.nodes i).puller.m.got ∨ c ∈ delivered ev := by
  have hmem : Msg.resp i ev ∈ (s.post [.resp i ev]).queue := by simp [post]
  have hproper := h.proper _ hmem
  have hi : i < s.k := by
    cases ev with
    | peerGone p => exact hproper.elim
    | tick => exact hproper.elim
    | _ => exact hproper.1
  obtain ⟨w, hs, hmet, hw⟩ := h.sees i hi
  obtain ⟨mv, rfl, ha, hf⟩ := hproper.fits hwin held hw hmem
  obtain ⟨hlen, hdeliv⟩ := delivered_event mv
  obtain ⟨hcount, hgot⟩ := hs.delivers hf
  rw [hw.node, nodes_post] at hcount hgot
  have hpuller : ((s.feed i mv.event).nodes i).puller = ((s.nodes i).puller.handle mv.event).1 := by
    rw [puller_feed, if_pos rfl]
  have hlog : ∀ j bin, ((s.feed i mv.event).nodes j).log bin = (s.nodes j).log bin := fun j bin =>
    feed_frame (fun n => n.log bin) (fun _ _ => rfl) s i j mv.event
  have hindex : ∀ j, ((s.feed i mv.event).nodes j).index = (s.nodes j).index := fun j =>
    feed_frame SimNode.index (fun _ _ => rfl) s i j mv.event
  refine ⟨⟨h.few, fun j hj => ?_, fun m hm => ?_, fun j hj => ?_, fun j hj => ?_, fun j hj => ?_,
    fun j hj => ?_, ?_⟩, fun c => ?_⟩
  · by_cases hij : i = j
    · subst hij
      exact ⟨{ w with shell := w.shell.next mv }, hs.move mv hf rfl rfl (.inl rfl),
        hmet.move hs hf rfl, hw.feed ha⟩
    · obtain ⟨w', hs', hm', hw'⟩ := h.sees j hj
      have hw' : Mirrors s j w' := hw'.congr rfl (fun _ => rfl) fun fx _ => by
        rw [outstanding_post]
        simp [Msg.carries, hij]
      exact ⟨w', hs', hm', hw'.feed_ne hij _⟩
  · rcases List.mem_append.mp hm with hm | hm
    · refine (h.proper m (List.mem_append_left _ hm)).mono rfl fun j bin start limit => ⟨limit, ?_⟩
      rw [hlog]
      rfl
    · obtain ⟨fx, -, rfl⟩ := List.mem_map.mp hm
      exact hi
  · rw [feed_frame SimNode.parked (fun _ _ => rfl)]
    simp only [SimNode.head, hlog]
    exact h.parked j hj
  · simp only [hindex, hlog]
    exact h.filed j hj
  · simp only [hlog]
    exact h.binned j hj
  · simp only [hindex]
    exact h.known j hj
  · have hold : ∑ j ∈ Finset.range s.k, s.served j
        = ∑ j ∈ Finset.range s.k, (s.nodes j).puller.m.ndeliv
          + ((s.queue ++ [Msg.resp i mv.event]).map inFlight).sum := h.served
    have hchange := sum_change (f := fun j => (s.nodes j).puller.m.ndeliv)
      (g := fun j => ((s.feed i mv.event).nodes j).puller.m.ndeliv) hi
      ((congrArg (fun n : Node Triple => n.m.ndeliv) hpuller).trans hcount)
      fun j hj => by rw [puller_feed, if_neg hj]
    have hzero : (((s.nodes i).puller.handle mv.event).2.map (inFlight ∘ Msg.req i)).sum = 0 := by
      simp [Function.comp_def, inFlight]
    change ∑ j ∈ Finset.range s.k, s.served j
      = ∑ j ∈ Finset.range s.k, ((s.feed i mv.event).nodes j).puller.m.ndeliv
        + ((s.queue ++ ((s.nodes i).puller.handle mv.event).2.map (Msg.req i)).map inFlight).sum
    rw [List.map_append, List.sum_append, List.map_map, hzero, hchange]
    rw [List.map_append, List.sum_append, List.map_singleton, List.sum_singleton,
      show inFlight (.resp i mv.event) = _ from hlen] at hold
    omega
  · rw [hpuller, hgot, hdeliv]

/-! ## Storing -/

/-- The answer to an offer is the page from its start. -/
theorem offerResponse_eq {j : ℕ} {bin : Bin} {start : ℕ}
    (hne : ((s.nodes j).log bin).page start page ≠ []) : s.offerResponse j bin start
      = .offerResult (peerId j) bin start (((s.nodes j).log bin).page start page)
        (AppendLog.topmost (((s.nodes j).log bin).page start page)) := by
  have hle := AppendLog.start_le_topmost hne
  have hlast : ((((s.nodes j).log bin).page start page).getLast?.map (·.1)).getD (start - 1)
      = AppendLog.topmost (((s.nodes j).log bin).page start page) := by
    rw [AppendLog.topmost, List.getLast?_eq_some_getLast hne]
    rfl
  rw [offerResponse]
  simp only [hlast]
  rw [max_eq_left hle]

/-- An offer at or below the head has a proper answer. -/
theorem proper_offerResponse (hfew : s.k ≤ 256) {j : ℕ} (hj : j < s.k) {receiver : ℕ}
    (hr : receiver < s.k) {bin : Bin} {start : ℕ} (hpos : 0 < start)
    (hle : start ≤ (s.nodes j).head bin) :
    Proper s (.resp receiver (s.offerResponse j bin start)) := by
  have hne : ((s.nodes j).log bin).page start page ≠ [] :=
    AppendLog.page_ne_nil hpos hle (by decide)
  rw [offerResponse_eq hne]
  refine ⟨hr, page, ?_⟩
  rw [toNat_peerId (Nat.lt_of_lt_of_le hj hfew)]
  exact ⟨hne, rfl, rfl⟩

/-- What a node stores changes no puller, and enters its index. -/
theorem store_frame (s : Sim) (i : ℕ) (c : Triple) : (s.store i c).k = s.k
    ∧ (∀ j, ((s.store i c).nodes j).puller = (s.nodes j).puller)
    ∧ ∀ j d, d ∈ ((s.store i c).nodes j).index ↔ d ∈ (s.nodes j).index ∨ j = i ∧ c = d := by
  by_cases hc : c ∈ (s.nodes i).index
  · rw [store_known hc]
    refine ⟨rfl, fun _ => rfl, fun j d => (or_iff_left_of_imp ?_).symm⟩
    rintro ⟨rfl, rfl⟩
    exact hc
  · rw [store_new hc]
    refine ⟨rfl, fun j => ?_, fun j d => ?_⟩
    · rw [nodes_post, nodes_setNode]
      split
      · next hj => rw [hj]; rfl
      · rfl
    · rw [nodes_post, nodes_setNode]
      split
      · next hj =>
        subst hj
        rw [SimNode.mem_index_grow, or_comm]
        simp
      · next hj => simp [hj]

/-- A page of a log stays a page of it, up to where the log grew. -/
theorem page_store {c : Triple} (hnew : c ∉ (s.nodes i).index) (j : ℕ) (bin : Bin)
    (start limit : ℕ) : ∃ limit', (((s.store i c).nodes j).log bin).page start limit'
      = ((s.nodes j).log bin).page start limit := by
  rw [nodes_store hnew]
  split
  · next hj =>
    subst hj
    by_cases hb : bin = binOf c
    · subst hb
      rw [SimNode.log_grow_self]
      exact ⟨_, AppendLog.page_append _ start limit⟩
    · rw [SimNode.log_grow_ne _ hb]
      exact ⟨limit, rfl⟩
  · exact ⟨limit, rfl⟩

/-- An offer that was parked starts just where the bin grew. -/
theorem Inv.proper_ready (h : Inv policy hwin held s) (hi : i < s.k) (c : Triple)
    {e : ℕ × Bin × ℕ} (he : e ∈ (s.nodes i).ready c) :
    Proper (s.setNode i ((s.nodes i).grow c))
      (.resp e.1 ((s.setNode i ((s.nodes i).grow c)).offerResponse i e.2.1 e.2.2)) := by
  obtain ⟨he, hr⟩ := List.mem_filter.mp he
  obtain ⟨her, hlt⟩ := h.parked i hi e he
  simp only [Bool.and_eq_true, beq_iff_eq, decide_eq_true_eq] at hr
  rw [hr.1] at hlt ⊢
  refine proper_offerResponse (s := s.setNode i ((s.nodes i).grow c)) h.few hi her (by omega) ?_
  rw [nodes_setNode, if_pos rfl, SimNode.head_grow]
  exact hr.2

/-- What is in flight once a triple is stored can still be given. -/
theorem Inv.proper_store (h : Inv policy hwin held s) (hi : i < s.k) {c : Triple}
    (hnew : c ∉ (s.nodes i).index) : ∀ m ∈ (s.store i c).queue, Proper (s.store i c) m := by
  intro m hm
  have hqueue : (s.store i c).queue = s.queue ++ ((s.nodes i).ready c).map fun e =>
      .resp e.1 ((s.setNode i ((s.nodes i).grow c)).offerResponse i e.2.1 e.2.2) := by
    rw [store_new hnew]
    rfl
  rw [hqueue, List.mem_append] at hm
  rcases hm with hm | hm
  · exact (h.proper m hm).mono (store_frame s i c).1 (page_store hnew)
  · obtain ⟨e, he, rfl⟩ := List.mem_map.mp hm
    rw [store_new hnew]
    exact (h.proper_ready hi c he).mono rfl fun j bin start limit => ⟨limit, rfl⟩

/-- What stays parked once a triple is stored waits past the new head. -/
theorem Inv.parked_store (h : Inv policy hwin held s) {c : Triple}
    (hnew : c ∉ (s.nodes i).index) {j : ℕ} (hj : j < s.k) :
    ∀ e ∈ ((s.store i c).nodes j).parked,
      e.1 < s.k ∧ ((s.store i c).nodes j).head e.2.1 < e.2.2 := by
  intro e he
  rw [nodes_store hnew] at he ⊢
  split at he
  · next hji =>
    subst hji
    obtain ⟨he, hr⟩ := List.mem_filter.mp he
    obtain ⟨her, hlt⟩ := h.parked j hj e he
    refine ⟨her, ?_⟩
    rw [if_pos rfl]
    by_cases hb : e.2.1 = binOf c
    · rw [hb, SimNode.head_grow]
      simpa [hb] using hr
    · rw [SimNode.head, SimNode.log_grow_ne _ hb]
      exact hlt
  · next hji =>
    rw [if_neg hji]
    exact h.parked j hj e he

/-- Storing answers offers and delivers nothing. -/
theorem Inv.served_store (h : Inv policy hwin held s) {c : Triple}
    (hnew : c ∉ (s.nodes i).index) : ∑ j ∈ Finset.range s.k, (s.store i c).served j
      = ∑ j ∈ Finset.range s.k, ((s.store i c).nodes j).puller.m.ndeliv
        + ((s.store i c).queue.map inFlight).sum := by
  have hpuller := (store_frame s i c).2.1
  have hzero : ((((s.nodes i).ready c).map fun e => Msg.resp e.1
      ((s.setNode i ((s.nodes i).grow c)).offerResponse i e.2.1 e.2.2)).map inFlight).sum = 0 := by
    simp [Function.comp_def, inFlight, offerResponse, delivered]
  simp only [hpuller]
  rw [store_new hnew, post, List.map_append, List.sum_append, hzero]
  exact h.served

/-- A node that stores a triple some node was given keeps the invariant. -/
theorem Inv.store (h : Inv policy hwin held s) (hi : i < s.k) {c : Triple}
    (hc : ∃ j < s.k, c ∈ held j) : Inv policy hwin held (s.store i c) := by
  by_cases hnew : c ∈ (s.nodes i).index
  · rwa [store_known hnew]
  have hi' : i < 256 := Nat.lt_of_lt_of_le hi h.few
  have hk := (store_frame s i c).1
  refine ⟨hk ▸ h.few, fun j hj => ?_, h.proper_store hi hnew,
    fun j hj => hk.symm ▸ h.parked_store hnew (hk ▸ hj), fun j hj d => ?_, fun j hj bin b d => ?_,
    fun j hj d => ?_, hk.symm ▸ h.served_store hnew⟩
  · obtain ⟨w, hs, hm, hw⟩ := h.sees j (hk ▸ hj)
    have hlog : w.logs ⟨peerId i, binOf c⟩ = (s.nodes i).log (binOf c) := by
      rw [hw.logs]
      dsimp only
      rw [toNat_peerId hi']
    have hb : (w.logs ⟨peerId i, binOf c⟩).head < (s.nodes i).head (binOf c) + 1 := by
      rw [hlog]
      exact Nat.lt_succ_self _
    rw [hk]
    exact ⟨_, hs.append hb w.appends, hm, hw.store hi' hnew hb⟩
  · rw [nodes_store hnew]
    split
    · exact SimNode.filed_grow (h.filed i hi) c d
    · exact h.filed j (hk ▸ hj) d
  · rw [nodes_store hnew]
    split
    · exact SimNode.binned_grow (h.binned i hi) c bin b d
    · exact h.binned j (hk ▸ hj) bin b d
  · rw [(store_frame s i c).2.2, hk]
    rintro (hd | ⟨-, rfl⟩)
    · exact h.known j (hk ▸ hj) d hd
    · exact hc

/-! ## Requests -/

theorem mem_peersOf {k i : ℕ} {p : PeerId} :
    p ∈ peersOf k i ↔ ∃ j, j < k ∧ j ≠ i ∧ peerId j = p := by
  simp [peersOf, and_assoc]

/-- A peer of a node is another node. -/
theorem toNat_of_mem_peersOf {k i : ℕ} (hk : k ≤ 256) {p : PeerId} (hp : p ∈ peersOf k i) :
    p.toNat < k ∧ p.toNat ≠ i := by
  obtain ⟨j, hj, hji, rfl⟩ := mem_peersOf.mp hp
  rw [toNat_peerId (Nat.lt_of_lt_of_le hj hk)]
  exact ⟨hj, hji⟩

/-- Serving has one outcome for every want, counts the deliveries and rejects nothing. -/
theorem serve_spec (n : SimNode) (want : List Triple) (draws : List Bool) (budget : ℕ) :
    (serve n want draws budget).outcomes.map (·.1) = want
      ∧ (∀ e ∈ (serve n want draws budget).outcomes, e.2 ≠ .rejected)
      ∧ (serve n want draws budget).count
        = ((serve n want draws budget).outcomes.filter fun e => e.2 = .delivered).length := by
  induction want generalizing draws budget with
  | nil => simp [serve]
  | cons c want ih =>
    simp only [serve]
    split
    · simpa using ih draws budget
    · split
      · simpa using ih draws.tail (budget - 1)
      · split <;> simpa using ih draws.tail budget

/-- A parked offer is outstanding. -/
theorem outstanding_park (s : Sim) (i j : ℕ) (p : PeerId) (bin : Bin) (start : ℕ)
    (fx : Effect Triple) :
    (s.setNode p.toNat { s.nodes p.toNat with
      parked := (s.nodes p.toNat).parked ++ [(i, bin, start)] }).outstanding j fx
      = s.outstanding j fx + if i = j ∧ .offer p bin start = fx then 1 else 0 := by
  have hparked : ((s.setNode p.toNat { s.nodes p.toNat with
      parked := (s.nodes p.toNat).parked ++ [(i, bin, start)] }).parkedFor j fx)
      = s.parkedFor j fx + if i = j ∧ .offer p bin start = fx then 1 else 0 := by
    cases fx with
    | offer q b st =>
      simp only [parkedFor, nodes_setNode]
      by_cases hq : q = p
      · subst hq
        rw [if_pos rfl, List.count_append, List.count_singleton]
        simp
      · rw [if_neg fun h => hq (UInt8.toNat_inj.mp h)]
        simp [Ne.symm hq]
    | _ => simp [parkedFor]
  rw [outstanding, outstanding, hparked]
  exact (Nat.add_assoc _ _ _).symm

/-- A request in flight is its sender's, and pending there unless it only reports. -/
theorem Inv.asked {eff : Effect Triple} (h : Inv policy hwin held (s.post [.req i eff])) :
    i < s.k ∧ ∃ w, Sound (setting s.k policy hwin i (held i)) w
      ∧ Met (setting s.k policy hwin i (held i)) w
      ∧ ((∀ p b upto, eff ≠ .settled p b upto) → eff ∈ w.pending) := by
  have hmem : Msg.req i eff ∈ (s.post [.req i eff]).queue := by simp [post]
  have hi : i < s.k := h.proper _ hmem
  obtain ⟨w, hs, hmet, hw⟩ := h.sees i hi
  exact ⟨hi, w, hs, hmet, fun hfx => hw.pending_of_carries hmem hfx (by simp [Msg.carries])⟩

/-- A request gives way to its answer, which carries what it did, once the deliveries the answer
brings are counted as served. -/
theorem Inv.answer {eff : Effect Triple} (h : Inv policy hwin held (s.post [.req i eff]))
    {ev : Event Triple} (ha : answers ev = some eff)
    (hp : Proper (s.post [.req i eff]) (.resp i ev)) (s' : Sim) (hk : s'.k = s.k)
    (hn : s'.nodes = s.nodes) (hq : s'.queue = s.queue)
    (hserved : ∑ j ∈ Finset.range s.k, s'.served j
      = ∑ j ∈ Finset.range s.k, s.served j + (delivered ev).length) :
    Inv policy hwin held (s'.post [.resp i ev]) := by
  have hnodes : ∀ j, (s'.post [.resp i ev]).nodes j = (s.post [.req i eff]).nodes j :=
    fun j => congrFun hn j
  refine h.reroute hk (fun j => by rw [hnodes]) (fun j => by rw [hnodes]) (fun j => by rw [hnodes])
    (fun j fx _ => ?_) (fun m hm => ?_) (fun j hj e he => h.parked j hj e (by rwa [← hnodes])) ?_
  · rw [outstanding_post, outstanding_post, outstanding_congr hq fun j => by rw [hn]]
    simp [Msg.carries, ha]
  · rcases List.mem_append.mp hm with hm | hm
    · exact h.proper m (List.mem_append_left _ (hq ▸ hm))
    · rwa [List.mem_singleton.mp hm]
  · change ∑ j ∈ Finset.range s.k, s'.served j + ((s.queue ++ [Msg.req i eff]).map inFlight).sum
      = ∑ j ∈ Finset.range s.k, s.served j + ((s'.queue ++ [Msg.resp i ev]).map inFlight).sum
    rw [hq, hserved, List.map_append, List.map_append, List.sum_append, List.sum_append]
    simp only [List.map_singleton, List.sum_singleton, inFlight]
    omega

/-- An offer asked past the head is parked at the peer. -/
theorem Inv.park {p : PeerId} {bin : Bin} {start : ℕ}
    (h : Inv policy hwin held (s.post [.req i (.offer p bin start)]))
    (hgt : (s.nodes p.toNat).head bin < start) :
    Inv policy hwin held (s.setNode p.toNat { s.nodes p.toNat with
      parked := (s.nodes p.toNat).parked ++ [(i, bin, start)] }) := by
  have hsame : ∀ {τ : Type} (f : SimNode → τ), (∀ n parked, f { n with parked := parked } = f n) →
      ∀ j, f ((s.setNode p.toNat { s.nodes p.toNat with
        parked := (s.nodes p.toNat).parked ++ [(i, bin, start)] }).nodes j) = f (s.nodes j) :=
    fun f hf j => by
      rw [nodes_setNode]
      split
      · next hj => rw [hf, hj]
      · rfl
  refine h.reroute rfl (hsame _ fun _ _ => rfl) (hsame _ fun _ _ => rfl) (hsame _ fun _ _ => rfl)
    (fun j fx _ => ?_) (fun m hm => h.proper m (List.mem_append_left _ hm))
    (fun j hj e he => ?_) ?_
  · rw [outstanding_park, outstanding_post]
    simp [Msg.carries]
  · rw [nodes_setNode] at he
    split at he
    · next hjp =>
      rcases List.mem_append.mp he with he | he
      · exact h.parked j hj e (by rw [nodes_post, hjp]; exact he)
      · rw [List.mem_singleton.mp he, hjp]
        exact ⟨h.asked.1, hgt⟩
    · exact h.parked j hj e he
  · simp [post, setNode, inFlight]

/-- An offer is answered from the log, or parked where the log ends. -/
theorem Inv.request_offer {p : PeerId} {bin : Bin} {start : ℕ}
    (h : Inv policy hwin held (s.post [.req i (.offer p bin start)])) (draws : List Bool) :
    Inv policy hwin held (s.deliver draws (.req i (.offer p bin start))) := by
  obtain ⟨hi, w, hs, -, hpend⟩ := h.asked
  have hpend := hpend (by simp)
  have hpos := (hs.account.starts ⟨p, bin⟩ start hpend).1
  have hkey := (hs.found.keys _ (hs.found.mem_logs hs.account (k := ⟨p, bin⟩) hpend)).1
  have hpeer := (toNat_of_mem_peersOf h.few (((Setting.mem_keys _ _).mp hkey).1.1)).1
  rw [deliver]
  dsimp only
  split
  · next hle =>
    have ha : answers (s.offerResponse p.toNat bin start) = some (.offer p bin start) := by
      rw [offerResponse, answers, peerId_toNat]
    have hp := proper_offerResponse (s := s.post [.req i (.offer p bin start)]) h.few hpeer hi
      hpos hle
    exact h.answer ha hp s rfl rfl rfl (by simp [offerResponse, delivered])
  · next hgt => exact h.park (Nat.lt_of_not_le hgt)

/-- A fetch is answered, and what the answer brings is counted as served. -/
theorem Inv.request_fetch {p : PeerId} {bin : Bin} {want : List Triple}
    (h : Inv policy hwin held (s.post [.req i (.fetch p bin want)])) (draws : List Bool) :
    Inv policy hwin held (s.deliver draws (.req i (.fetch p bin want))) := by
  obtain ⟨hi, w, hs, hmet, hpend⟩ := h.asked
  have hpeer : p.toNat < s.k :=
    (toNat_of_mem_peersOf h.few (hmet.mem_peers hs (hpend (by simp)))).1
  obtain ⟨hwant, hrej, hcount⟩ := serve_spec (s.nodes p.toNat) want draws s.spuriousBudget
  have ha : answers (.fetchResult p bin (serve (s.nodes p.toNat) want draws
      s.spuriousBudget).outcomes) = some (.fetch p bin want) := by
    rw [answers, hwant]
  refine h.answer ha ⟨hi, hrej⟩ { s with
    served := Function.update s.served p.toNat (s.served p.toNat
      + (serve (s.nodes p.toNat) want draws s.spuriousBudget).count)
    spuriousBudget := (serve (s.nodes p.toNat) want draws s.spuriousBudget).budget } rfl rfl rfl ?_
  rw [delivered, List.length_map, ← hcount]
  exact sum_change hpeer (Function.update_self _ _ _) fun j hj => Function.update_of_ne hj _ _

/-- What a request becomes keeps the invariant. -/
theorem Inv.request {eff : Effect Triple} (h : Inv policy hwin held (s.post [.req i eff]))
    (draws : List Bool) : Inv policy hwin held (s.deliver draws (.req i eff)) := by
  cases eff with
  | getCursors p =>
    have hp : Proper (s.post [.req i (.getCursors p)])
        (.resp i (.cursorsResult p (bins.map fun b => (b, (s.nodes p.toNat).head b)))) :=
      ⟨h.asked.1, by simp [Function.comp_def]⟩
    exact h.answer rfl hp s rfl rfl rfl (by simp [delivered])
  | offer p bin start => exact h.request_offer draws
  | fetch p bin want => exact h.request_fetch draws
  | settled p bin upto =>
    -- the report goes nowhere
    refine h.reroute rfl (fun _ => rfl) (fun _ => rfl) (fun _ => rfl) (fun j fx hfx => ?_)
      (fun m hm => h.proper m (List.mem_append_left _ hm)) h.parked ?_
    · rw [outstanding_post, deliver]
      simp [Msg.carries, Ne.symm (hfx p bin upto)]
    · simp [post, deliver, inFlight]

end

end Melissi.Sim
