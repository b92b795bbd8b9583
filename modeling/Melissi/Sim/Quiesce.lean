import Melissi.Sim.Sights

/-!
# An honest neighbourhood comes to rest

The rank of a neighbourhood is lexicographic: what the nodes still lack, then the misses that are left
or on their way, then the ranks of the pullers that watch it, then the messages in flight. With nobody
faulty every delivery lowers it, whichever message is delivered and whatever is drawn. So the seeded
simulator, which draws both, ends for every seed.
-/

namespace Melissi.Sim

open Melissi.Common Melissi.Machine Melissi.Settlement Melissi.Node Melissi.Puller
open Std (ExtTreeMap ExtTreeSet)

/-- Some message in flight is delivered. -/
def Delivers (s s' : Sim) : Prop :=
  ∃ idx draws, idx < s.queue.length ∧ s' = s.step idx draws

/-! ## Who is faulty -/

theorem byzantine_stores (s : Sim) (i : ℕ) (cs : List Triple) (j : ℕ) :
    ((cs.foldl (fun s c => s.store i c) s).nodes j).byzantine = (s.nodes j).byzantine := by
  induction cs generalizing s with
  | nil => rfl
  | cons c cs ih =>
    rw [List.foldl_cons, ih]
    by_cases hc : c ∈ (s.nodes i).index
    · rw [store_known hc]
    · rw [store_new hc, nodes_post, nodes_setNode]
      split
      · next hj => rw [hj]; rfl
      · rfl

theorem byzantine_deliver (s : Sim) (draws : List Bool) (m : Msg) (j : ℕ) :
    ((s.deliver draws m).nodes j).byzantine = (s.nodes j).byzantine := by
  cases m with
  | req i eff => exact (request_logs s draws i eff j).2
  | resp i ev =>
    rw [deliver, byzantine_stores, feed_frame SimNode.byzantine (fun _ _ => rfl)]

theorem byzantine_step (s : Sim) (idx : ℕ) (draws : List Bool) (j : ℕ) :
    ((s.step idx draws).nodes j).byzantine = (s.nodes j).byzantine := by
  rw [step]
  split
  · rfl
  · exact byzantine_deliver _ draws _ j

/-- Nobody turns faulty in a run. -/
theorem byzantine_run (s : Sim) (acts : List Act) (j : ℕ) :
    ((s.run acts).nodes j).byzantine = (s.nodes j).byzantine := by
  induction acts generalizing s with
  | nil => rfl
  | cons a acts ih =>
    refine (ih (s.act a)).trans ?_
    cases a with
    | arrive i c =>
      rw [act, arrive, ← preload_frame SimNode.byzantine (fun _ _ => rfl) s i c j]
      exact byzantine_stores _ i [c] j
    | step idx draws => exact byzantine_step s idx draws j

theorem byzantine_startWith (s : Sim) (es : List (ℕ × ℕ)) (j : ℕ) :
    ((s.startWith es).nodes j).byzantine = (s.nodes j).byzantine := by
  induction es generalizing s with
  | nil => rfl
  | cons e es ih =>
    exact (ih _).trans (feed_frame SimNode.byzantine (fun _ _ => rfl) s e.1 j _)

theorem byzantine_seeded (k : ℕ) (byzantine : List ℕ) (policy : Policy) (spuriousBudget : ℕ)
    (seeds : List (ℕ × Triple)) (j : ℕ) :
    ((seeded k byzantine policy spuriousBudget seeds).nodes j).byzantine = byzantine.contains j := by
  induction seeds using List.reverseRecOn with
  | nil => rfl
  | append_singleton seeds e ih =>
    rw [seeded, List.foldl_append]
    refine (preload_frame SimNode.byzantine (fun _ _ => rfl) _ e.1 e.2 j).trans ?_
    exact (byzantine_stores _ e.1 [e.2] j).trans ih

/-! ## The rank -/

/-- The misses that a message brings. -/
def missedIn : Msg → ℕ
  | .resp _ (.fetchResult _ _ outcomes) => missed outcomes
  | _ => 0

/-- The misses that are left, and those on their way. -/
def missesLeft (s : Sim) : ℕ := s.spuriousBudget + (s.queue.map missedIn).sum

/-- A request counts twice, since it becomes a response. -/
def weight : Msg → ℕ
  | .req _ _ => 2
  | .resp _ _ => 1

def load (s : Sim) : ℕ := (s.queue.map weight).sum

/-- What the nodes lack of a set of triples. -/
noncomputable def lacking (s : Sim) (all : Finset Triple) : ℕ :=
  ∑ i ∈ Finset.range s.k, count all fun c => c ∉ (s.nodes i).index

/-- An honest node that has what is wanted misses only what the budget pays for. -/
theorem serve_honest {n : SimNode} (hn : ¬ n.byzantine) (want : List Triple) (draws : List Bool)
    (budget : ℕ) (hw : ∀ c ∈ want, c ∈ n.index) :
    (serve n want draws budget).budget + missed (serve n want draws budget).outcomes = budget := by
  induction want generalizing draws budget with
  | nil => simp [serve, missed]
  | cons c want ih =>
    have ih := fun draws budget => ih draws budget fun d hd => hw d (List.mem_cons_of_mem _ hd)
    have hc : n.index.contains c = true := ExtTreeSet.mem_iff_contains.mp (hw c List.mem_cons_self)
    simp only [serve, hn, hc, Bool.not_true, Bool.false_eq_true, if_false]
    split
    · have hrest := ih draws.tail (budget - 1)
      simp only [missed, List.countP_cons, decide_true, if_true] at hrest ⊢
      omega
    · simpa [missed] using ih draws.tail budget

/-- A request that is served by honest nodes leaves as many misses. -/
theorem misses_request (s : Sim) (draws : List Bool) (i : ℕ) (eff : Effect Triple)
    (hfetch : ∀ p b want, eff = .fetch p b want →
      ¬ (s.nodes p.toNat).byzantine ∧ ∀ c ∈ want, c ∈ (s.nodes p.toNat).index) :
    (s.deliver draws (.req i eff)).missesLeft = s.missesLeft := by
  cases eff with
  | getCursors p => simp [deliver, post, missesLeft, missedIn]
  | offer p bin start =>
    rw [deliver]
    dsimp only
    split
    · simp [post, missesLeft, missedIn, offerResponse]
    · rfl
  | fetch p bin want =>
    obtain ⟨hn, hw⟩ := hfetch p bin want rfl
    have hserved := serve_honest hn want draws s.spuriousBudget hw
    simp only [deliver, missesLeft, List.map_append, List.sum_append, List.map_singleton,
      List.sum_singleton, missedIn]
    omega
  | settled p bin upto => rfl

/-- A request that is answered or parked is a lighter load. -/
theorem load_request (s : Sim) (draws : List Bool) (i : ℕ) (eff : Effect Triple) :
    (s.deliver draws (.req i eff)).load < s.load + weight (.req i eff) := by
  cases eff with
  | offer p bin start =>
    rw [deliver]
    dsimp only
    split
    · simp [post, load, weight]
    · simp [setNode, load, weight]
  | _ => simp [deliver, post, load, weight]

theorem budget_stores (s : Sim) (i : ℕ) (cs : List Triple) :
    (cs.foldl (fun s c => s.store i c) s).spuriousBudget = s.spuriousBudget := by
  induction cs generalizing s with
  | nil => rfl
  | cons c cs ih =>
    rw [List.foldl_cons, ih]
    by_cases hc : c ∈ (s.nodes i).index
    · rw [store_known hc]
    · rw [store_new hc]
      rfl

theorem k_stores (s : Sim) (i : ℕ) (cs : List Triple) :
    (cs.foldl (fun s c => s.store i c) s).k = s.k := by
  induction cs generalizing s with
  | nil => rfl
  | cons c cs ih => rw [List.foldl_cons, ih, (store_frame s i c).1]

/-- What a response makes a node send brings no misses. -/
theorem misses_response (s : Sim) (draws : List Bool) (i : ℕ) (ev : Event Triple) :
    (s.deliver draws (.resp i ev)).missesLeft = s.missesLeft := by
  obtain ⟨news, hq, hnews⟩ := queue_response s draws i ev
  have hzero : (news.map missedIn).sum = 0 := by
    rw [List.sum_eq_zero_iff]
    intro n hn
    obtain ⟨m, hm, rfl⟩ := List.mem_map.mp hn
    have hsent := hnews m hm
    cases m with
    | req j fx => rfl
    | resp j ev =>
      cases ev with
      | fetchResult p b outcomes => exact hsent.elim
      | _ => rfl
  have hbudget : (s.deliver draws (.resp i ev)).spuriousBudget = s.spuriousBudget := by
    rw [deliver, budget_stores]
    rfl
  rw [missesLeft, missesLeft, hq, hbudget, List.map_append, List.sum_append, hzero, Nat.add_zero]

theorem k_deliver (s : Sim) (draws : List Bool) (m : Msg) : (s.deliver draws m).k = s.k := by
  cases m with
  | req i eff => exact (request_frame s draws i eff).1
  | resp i ev => exact k_stores (s.feed i ev) i _

/-- No delivery makes the nodes lack more. -/
theorem lacking_deliver_le (s : Sim) (draws : List Bool) (m : Msg) (all : Finset Triple) :
    (s.deliver draws m).lacking all ≤ s.lacking all := by
  rw [lacking, lacking, k_deliver]
  refine Finset.sum_le_sum fun j _ => count_le fun c _ hc hold => hc ?_
  exact (index_deliver s draws m j c).mpr (.inl hold)

theorem mem_delivered {c : Triple} {p : PeerId} {b : Bin} {outcomes : List (Triple × Outcome)}
    (hc : (c, .delivered) ∈ outcomes) : c ∈ delivered (.fetchResult p b outcomes) :=
  List.mem_map.mpr ⟨_, List.mem_filter.mpr ⟨hc, decide_eq_true rfl⟩, rfl⟩

/-- A response that delivers what its node lacked makes the nodes lack less. -/
theorem lacking_deliver_lt (s : Sim) (draws : List Bool) {i : ℕ} {p : PeerId} {b : Bin}
    {outcomes : List (Triple × Outcome)} {all : Finset Triple} {c : Triple} (hi : i < s.k)
    (hall : c ∈ all) (hnew : c ∉ (s.nodes i).index) (hc : (c, .delivered) ∈ outcomes) :
    (s.deliver draws (.resp i (.fetchResult p b outcomes))).lacking all < s.lacking all := by
  have hindex := index_deliver s draws (.resp i (.fetchResult p b outcomes))
  rw [lacking, lacking, k_deliver]
  refine Finset.sum_lt_sum (fun j _ => count_le fun d _ hd hold => hd ?_)
    ⟨i, Finset.mem_range.mpr hi, count_lt c hall hnew (fun hn => hn ?_) fun d _ hd hold => hd ?_⟩
  · exact (hindex j d).mpr (.inl hold)
  · exact (hindex i c).mpr (.inr ⟨_, rfl, mem_delivered hc⟩)
  · exact (hindex i d).mpr (.inl hold)

/-! ## Every delivery lowers the rank -/

section

variable {policy : Policy} {hwin : 1 ≤ policy.window} {held : ℕ → List Triple} {s : Sim}
  {es : List (ℕ × ℕ)} {k : ℕ} {ws : ℕ → World Triple}

/-- An honest neighbourhood, and the worlds that watch it. -/
structure Ranked (es : List (ℕ × ℕ)) (policy : Policy) (hwin : 1 ≤ policy.window)
    (held : ℕ → List Triple) (k : ℕ) (s : Sim) (ws : ℕ → World Triple) : Prop where
  joined : Joined es policy hwin held s
  size : s.k = k
  honest : ∀ i, ¬ (s.nodes i).byzantine
  watched : ∀ i < k, Watches (among policy hwin (seenBy es i) (held i)) s i (ws i)

/-- The ranks of the pullers. -/
noncomputable def ranks (es : List (ℕ × ℕ)) (policy : Policy) (hwin : 1 ≤ policy.window)
    (held : ℕ → List Triple) (k : ℕ) (ws : ℕ → World Triple) : Fin k → ℕ ×ₗ ℕ ×ₗ ℕ ×ₗ ℕ :=
  fun i => rank (among policy hwin (seenBy es i) (held i)) (ws i)

noncomputable def simRank (es : List (ℕ × ℕ)) (policy : Policy) (hwin : 1 ≤ policy.window)
    (held : ℕ → List Triple) (k : ℕ) (s : Sim) (ws : ℕ → World Triple) :
    ℕ ×ₗ ℕ ×ₗ (Fin k → ℕ ×ₗ ℕ ×ₗ ℕ ×ₗ ℕ) ×ₗ ℕ :=
  toLex (s.lacking (given k held), toLex (s.missesLeft,
    toLex (ranks es policy hwin held k ws, s.load)))

/-- A world that moves down takes the ranks down. -/
theorem ranks_update_lt {i : ℕ} (hi : i < k) {w : World Triple}
    (h : rank (among policy hwin (seenBy es i) (held i)) w
      < rank (among policy hwin (seenBy es i) (held i)) (ws i)) :
    ranks es policy hwin held k (Function.update ws i w) < ranks es policy hwin held k ws := by
  refine Pi.lt_def.mpr ⟨fun j => ?_, ⟨i, hi⟩, ?_⟩
  · rw [ranks, ranks]
    by_cases hj : (j : ℕ) = i
    · rw [hj, Function.update_self]
      exact h.le
    · rw [Function.update_of_ne hj]
  · rw [ranks, ranks, Function.update_self]
    exact h

/-- A response that brings no outcome moves the puller it goes to down. -/
theorem rank_response {S : Setting Triple} {w : World Triple} {mv : Move Triple} (h : Sound S w)
    (hf : Fits S w mv) (hans : mv.answered ≠ none) (hout : ∀ p b want outcomes,
      mv ≠ .fetch p b want outcomes) : rank S { w with shell := w.shell.next mv } < rank S w := by
  cases mv with
  | cursors p cs =>
    have hasked := asked_next hf (by simp [Move.event])
    refine rank_lt_of_budget ?_
    dsimp only [budget, World.pending]
    change _ + 1 = _ at hasked
    omega
  | offer p b start refs topmost =>
    obtain ⟨hp, limit, hne, rfl, rfl⟩ := hf
    exact rank_offer h hp hne rfl rfl rfl rfl
  | fetch p b want outcomes => exact absurd rfl (hout p b want outcomes)
  | _ => exact absurd rfl hans

/-- The outcomes of a fetch deliver something that was lacking, or something is missed. -/
theorem Ranked.outcomes (h : Ranked es policy hwin held k s ws) {i : ℕ} {p : PeerId} {b : Bin}
    {outcomes : List (Triple × Outcome)} (hm : .resp i (.fetchResult p b outcomes) ∈ s.queue) :
    (∃ c ∈ given k held, c ∉ (s.nodes i).index ∧ (c, .delivered) ∈ outcomes)
      ∨ 0 < missed outcomes := by
  have hinv := h.joined.kept.inv
  obtain ⟨hi, hrej⟩ := hinv.proper _ hm
  have hw := h.watched i (h.size ▸ hi)
  have hpend : .fetch p b (outcomes.map (·.1)) ∈ (ws i).pending :=
    hw.mirrors.pending_of_carries hm (by simp) (by simp [Msg.carries, answers])
  obtain ⟨c, hc⟩ := List.exists_mem_of_ne_nil _ (hw.sound.account.batches p b _ hpend).1
  obtain ⟨⟨c, o⟩, he, rfl⟩ := List.mem_map.mp hc
  cases o with
  | rejected => exact absurd rfl (hrej _ he)
  | missed => exact .inr (List.countP_pos_iff.mpr ⟨_, he, decide_eq_true rfl⟩)
  | delivered =>
    -- what is leased is not stored, and what is delivered some node indexes
    have hleased := hw.sound.account.accounted.leased p b _ hpend c hc
    have hunst := hw.sound.account.safe.claims.unstored _ _ hleased
    rw [hw.mirrors.node, ← h.joined.kept.stored i hi] at hunst
    obtain ⟨q, hq, hx⟩ := hw.delivered_seen hinv (fun q hq =>
      (sees_of_mem_seenBy hinv.few h.joined.seen hq).1) hm (mem_delivered he)
    have hknown := hinv.known _ (sees_of_mem_seenBy hinv.few h.joined.seen hq).1 c hx
    rw [h.size] at hknown
    exact .inl ⟨c, mem_given.mpr hknown, hunst, he⟩

/-- What is fetched is fetched from an honest node that indexes it. -/
theorem Ranked.fetches (h : Ranked es policy hwin held k s ws) {i : ℕ} {p : PeerId} {b : Bin}
    {want : List Triple} (hm : .req i (.fetch p b want) ∈ s.queue) {c : Triple} (hc : c ∈ want) :
    c ∈ (s.nodes p.toNat).index := by
  have hi : i < s.k := h.joined.kept.inv.proper _ hm
  have hw := h.watched i (h.size ▸ hi)
  have hpend : .fetch p b want ∈ (ws i).pending :=
    hw.mirrors.pending_of_carries hm (by simp) (by simp [Msg.carries])
  have hleased := hw.sound.account.accounted.leased p b _ hpend c hc
  have hheld := hw.sound.account.safe.claims.held c p hleased
  rw [hw.mirrors.node] at hheld
  exact h.joined.backed i hi c p hheld

/-- A response without outcomes is a move of the puller it goes to, and takes that down. -/
theorem Ranked.moves (h : Ranked es policy hwin held k s ws) {t : Sim} {i : ℕ} {ev : Event Triple}
    (hm : .resp i ev ∈ s.queue) (hinv : Inv policy hwin held (t.post [.resp i ev]))
    (hw : Watches (among policy hwin (seenBy es i) (held i)) (t.post [.resp i ev]) i (ws i))
    (hout : ∀ p b outcomes, ev ≠ .fetchResult p b outcomes) :
    ∃ mv : Move Triple, mv.event = ev ∧ answers mv.event = mv.answered
      ∧ Fits (among policy hwin (seenBy es i) (held i)) (ws i) mv ∧ delivered mv.event = []
      ∧ rank (among policy hwin (seenBy es i) (held i)) { ws i with shell := (ws i).shell.next mv }
        < rank (among policy hwin (seenBy es i) (held i)) (ws i) := by
  obtain ⟨mv, rfl, ha, hf⟩ := hinv.fits (held i) hw.mirrors fun p hp =>
    absurd (hp ▸ hm) (h.joined.asked i p)
  have hdel : delivered mv.event = [] := by
    cases mv with
    | fetch p b want outcomes => exact absurd rfl (hout p b outcomes)
    | _ => rfl
  have hans : mv.answered ≠ none := by
    cases mv with
    | peerSeen p => exact absurd hm (h.joined.asked i p)
    | peerGone p => exact hf.elim
    | tick => exact (h.joined.kept.inv.proper _ hm).elim
    | _ => simp [Move.answered]
  exact ⟨mv, rfl, ha, hf, hdel, rank_response hw.sound hf hans fun p b want outcomes hmv =>
    hout p b outcomes (hmv ▸ rfl)⟩

/-- The neighbourhood `t` is `s` with a message taken out of the queue. -/
structure Taken (s t : Sim) (m : Msg) : Prop where
  k : t.k = s.k
  nodes : t.nodes = s.nodes
  spuriousBudget : t.spuriousBudget = s.spuriousBudget
  queue : (m :: t.queue).Perm s.queue

namespace Taken

variable {t : Sim} {m : Msg}

theorem swapRemove {idx : ℕ} (hm : s.queue[idx]? = some m) :
    Taken s { s with queue := Sim.swapRemove s.queue idx } m :=
  ⟨rfl, rfl, rfl, swapRemove_perm hm⟩

theorem mem (h : Taken s t m) : m ∈ s.queue := h.queue.subset List.mem_cons_self

theorem lacking_eq (h : Taken s t m) : t.lacking = s.lacking := by
  funext all
  rw [lacking, lacking, h.k, h.nodes]

theorem sum_map (h : Taken s t m) (f : Msg → ℕ) :
    (s.queue.map f).sum = (t.queue.map f).sum + f m := by
  rw [← (h.queue.map f).sum_nat, List.map_cons, List.sum_cons, Nat.add_comm]

theorem missesLeft_eq (h : Taken s t m) : s.missesLeft = t.missesLeft + missedIn m := by
  have := h.sum_map missedIn
  rw [missesLeft, missesLeft, h.spuriousBudget]
  omega

theorem load_eq (h : Taken s t m) : s.load = t.load + weight m := h.sum_map weight

/-- Whatever is taken out and delivered, the nodes lack no more. -/
theorem lacking_le (h : Taken s t m) (draws : List Bool) (all : Finset Triple) :
    (t.deliver draws m).lacking all ≤ s.lacking all :=
  h.lacking_eq ▸ lacking_deliver_le t draws m all

end Taken

/-- A request lightens the load, and leaves the nodes, the misses and the pullers. -/
theorem Ranked.rank_request (h : Ranked es policy hwin held k s ws) {t : Sim} {i : ℕ}
    {eff : Effect Triple} (ht : Taken s t (.req i eff)) (draws : List Bool) :
    simRank es policy hwin held k (t.deliver draws (.req i eff)) ws
      < simRank es policy hwin held k s ws := by
  have hmisses := misses_request t draws i eff fun p b want heff => by
    rw [ht.nodes]
    exact ⟨h.honest _, fun c hc => h.fetches (heff ▸ ht.mem) hc⟩
  have hleft : s.missesLeft = t.missesLeft := ht.missesLeft_eq
  have hload := load_request t draws i eff
  refine Prod.Lex.toLex_lt_toLex'.mpr ⟨ht.lacking_le draws _, fun _ =>
    Prod.Lex.toLex_lt_toLex'.mpr ⟨?_, fun _ => Prod.Lex.toLex_lt_toLex'.mpr ⟨le_rfl, fun _ => ?_⟩⟩⟩
  · exact (hmisses.trans hleft.symm).le
  · exact hload.trans_eq ht.load_eq.symm

/-- The outcomes of a fetch bring what its node lacked, or use up a miss. -/
theorem Ranked.rank_outcomes (h : Ranked es policy hwin held k s ws) {t : Sim} {i : ℕ} {p : PeerId}
    {b : Bin} {outcomes : List (Triple × Outcome)}
    (ht : Taken s t (.resp i (.fetchResult p b outcomes))) (draws : List Bool)
    (ws' : ℕ → World Triple) :
    simRank es policy hwin held k (t.deliver draws (.resp i (.fetchResult p b outcomes))) ws'
      < simRank es policy hwin held k s ws := by
  have hi : i < s.k := (h.joined.kept.inv.proper _ ht.mem).lt
  rcases h.outcomes ht.mem with ⟨c, hc, hnew, hdel⟩ | hmissed
  · have hlt := lacking_deliver_lt t draws (p := p) (b := b) (ht.k ▸ hi) hc (ht.nodes ▸ hnew) hdel
    rw [ht.lacking_eq] at hlt
    exact Prod.Lex.toLex_lt_toLex.mpr (.inl hlt)
  · have hmisses := misses_response t draws i (.fetchResult p b outcomes)
    have hleft : s.missesLeft = t.missesLeft + missed outcomes := ht.missesLeft_eq
    refine Prod.Lex.toLex_lt_toLex'.mpr ⟨ht.lacking_le draws _,
      fun _ => Prod.Lex.toLex_lt_toLex.mpr (.inl ?_)⟩
    dsimp only
    omega

/-- Any other response takes the puller it goes to down, and leaves the nodes and the misses. -/
theorem Ranked.rank_response {t : Sim} {i : ℕ} {ev : Event Triple} (ht : Taken s t (.resp i ev))
    (draws : List Bool) (hi : i < k) {w : World Triple}
    (hdown : rank (among policy hwin (seenBy es i) (held i)) w
      < rank (among policy hwin (seenBy es i) (held i)) (ws i)) :
    simRank es policy hwin held k (t.deliver draws (.resp i ev)) (Function.update ws i w)
      < simRank es policy hwin held k s ws := by
  have hmisses := misses_response t draws i ev
  have hleft := ht.missesLeft_eq
  refine Prod.Lex.toLex_lt_toLex'.mpr ⟨ht.lacking_le draws _, fun _ =>
    Prod.Lex.toLex_lt_toLex'.mpr ⟨?_,
      fun _ => Prod.Lex.toLex_lt_toLex.mpr (.inl (ranks_update_lt hi hdown))⟩⟩
  dsimp only
  omega

/-- Every delivery lowers the rank. -/
theorem Ranked.lowers (h : Ranked es policy hwin held k s ws) {s' : Sim} (hd : Delivers s s') :
    ∃ ws', Ranked es policy hwin held k s' ws'
      ∧ simRank es policy hwin held k s' ws' < simRank es policy hwin held k s ws := by
  obtain ⟨idx, draws, hidx, rfl⟩ := hd
  obtain ⟨m, hm⟩ : ∃ m, s.queue[idx]? = some m := ⟨_, List.getElem?_eq_getElem hidx⟩
  have hmem := List.mem_of_getElem? hm
  obtain ⟨hjoined, hon⟩ := h.joined.step idx draws
  have hk : (s.step idx draws).k = k := hon.k.trans h.size
  have hhonest : ∀ i, ¬ ((s.step idx draws).nodes i).byzantine := fun i => by
    rw [byzantine_step]
    exact h.honest i
  obtain ⟨t, ht, hstep⟩ : ∃ t : Sim, t = { s with queue := swapRemove s.queue idx }
      ∧ s.step idx draws = t.deliver draws m := ⟨_, rfl, by rw [step, hm]⟩
  have htaken : Taken s t m := ht ▸ Taken.swapRemove hm
  have htake : ∀ i < k, Watches (among policy hwin (seenBy es i) (held i)) (t.post [m]) i (ws i) :=
    fun i hi => ht ▸ (h.watched i hi).take hm
  have hinv : Inv policy hwin held (t.post [m]) := ht ▸ h.joined.kept.inv.take hm
  rw [hstep] at hjoined hk hhonest ⊢
  cases m with
  | req i eff =>
    exact ⟨ws, ⟨hjoined, hk, hhonest, fun j hj => (htake j hj).request draws⟩,
      h.rank_request htaken draws⟩
  | resp i ev =>
    by_cases hout : ∃ p b outcomes, ev = .fetchResult p b outcomes
    · obtain ⟨p, b, outcomes, rfl⟩ := hout
      have hfollow : ∀ j, ∃ w', j < k → Watches (among policy hwin (seenBy es j) (held j))
          (t.deliver draws (.resp i (.fetchResult p b outcomes))) j w' := by
        intro j
        by_cases hj : j < k
        · obtain ⟨w', hw'⟩ := (htake j hj).deliver hinv (fun p hp =>
            absurd (hp ▸ hmem) (h.joined.asked j p)) draws
          exact ⟨w', fun _ => hw'⟩
        · exact ⟨ws j, fun hj' => absurd hj' hj⟩
      choose ws' hws' using hfollow
      exact ⟨ws', ⟨hjoined, hk, hhonest, hws'⟩, h.rank_outcomes htaken draws ws'⟩
    · -- one puller moves down, and the others are left alone
      have hi : i < k := h.size ▸ (h.joined.kept.inv.proper _ hmem).lt
      obtain ⟨mv, rfl, ha, hf, hdel, hdown⟩ := h.moves hmem hinv (htake i hi)
        fun p b outcomes hev => hout ⟨p, b, outcomes, hev⟩
      have hfeed : t.deliver draws (.resp i mv.event) = t.feed i mv.event := by
        rw [deliver, hdel, List.foldl_nil]
      refine ⟨Function.update ws i { ws i with shell := (ws i).shell.next mv },
        ⟨hjoined, hk, hhonest, fun j hj => ?_⟩, Ranked.rank_response htaken draws hi hdown⟩
      rw [hfeed]
      by_cases hji : j = i
      · subst hji
        rw [Function.update_self]
        exact (htake j hj).feed ha hf
      · rw [Function.update_of_ne hji]
        exact (htake j hj).feed_ne (Ne.symm hji)

/-- From an honest neighbourhood no deliveries go on for ever. -/
theorem Ranked.acc (h : Ranked es policy hwin held k s ws) : Acc (Function.swap Delivers) s :=
  acc_of_follows (simRank es policy hwin held k) (fun _ _ _ hR hd => hR.lowers hd) h

/-- Whoever sees whom, a run of an honest neighbourhood comes to its end. -/
theorem Joined.acc (h : Joined es policy hwin held s) (hhonest : ∀ i, ¬ (s.nodes i).byzantine) :
    Acc (Function.swap Delivers) s := by
  have hws : ∀ i, ∃ w, i < s.k → Watches (among policy hwin (seenBy es i) (held i)) s i w := by
    intro i
    by_cases hi : i < s.k
    · obtain ⟨w, hw⟩ := h.watched i hi
      exact ⟨w, fun _ => hw⟩
    · exact ⟨World.init (among policy hwin [] []) (fun _ => .empty) 0 0 0, fun hi' => absurd hi' hi⟩
  choose ws hws using hws
  have hranked : Ranked es policy hwin held s.k s ws := ⟨h, rfl, hhonest, hws⟩
  exact hranked.acc

/-- Deliveries keep the invariant, and take no peer away. -/
theorem Joined.delivered (h : Joined es policy hwin held s) {s' : Sim}
    (hd : Relation.ReflTransGen Delivers s s') :
    Joined es policy hwin held s' ∧ Onward s s' := by
  induction hd with
  | refl => exact ⟨h, .refl s⟩
  | tail _ hd ih =>
    obtain ⟨idx, draws, -, rfl⟩ := hd
    obtain ⟨hstep, hon⟩ := ih.1.step idx draws
    exact ⟨hstep, ih.2.trans hon⟩

/-- Nothing can be delivered exactly when no message is in flight. -/
theorem not_delivers_iff : (∀ s', ¬ Delivers s s') ↔ s.queue = [] := by
  rw [← List.length_eq_zero_iff]
  constructor
  · intro h
    by_contra hne
    exact h _ ⟨0, [], Nat.pos_of_ne_zero hne, rfl⟩
  · rintro h s' ⟨idx, draws, hidx, -⟩
    omega

/-- An honest neighbourhood in a run from its start: nothing goes on for ever, and what deliveries
lead to is complete once nothing is in flight. -/
theorem Seeded.quiesces {k : ℕ} (hwin : 1 ≤ policy.window) (h : Seeded k policy held s)
    (hhonest : ∀ i, ¬ (s.nodes i).byzantine) (hk : k ≤ 256) (hes : ∀ e ∈ es, e ∈ sights k)
    (acts : List Act) (hfresh : (s.startWith es).Fresh acts) :
    let held' := fun i => held i ++ arrivalsOf acts i
    Acc (Function.swap Delivers) ((s.startWith es).run acts)
      ∧ ∀ s', Relation.ReflTransGen Delivers ((s.startWith es).run acts) s' → s'.queue = [] →
        ∀ i < k, (∀ c, s'.nodeHas i c ↔ c ∈ ledTo es k held' i) ∧ s'.deficit i = 0
          ∧ s'.deliveries i = (ledTo es k held' i \ (held' i).toFinset).card := by
  intro held'
  obtain ⟨hstart, hon, hseen⟩ := (h.joined hwin hk hes).start
  obtain ⟨hrun, hon'⟩ := hstart.run acts hfresh
  refine ⟨hrun.acc fun i => ?_, fun s' hs' hq i hi => ?_⟩
  · rw [byzantine_run, byzantine_startWith]
    exact hhonest i
  · obtain ⟨hend, hon''⟩ := hrun.delivered hs'
    have hkk : s'.k = k := ((hon''.k.trans hon'.k).trans hon.k).trans h.k
    have hall : ∀ e ∈ es, peerId e.2 ∈ (s'.nodes e.1).puller.peers := fun e he =>
      hon''.peers _ _ (hon'.peers _ _ (hseen e he))
    obtain ⟨hindex, hrest⟩ := hend.complete hq hall (hi.trans_eq hkk.symm)
    rw [hkk] at hindex hrest
    refine ⟨fun c => ?_, hrest⟩
    rw [nodeHas, ← ExtTreeSet.mem_iff_contains]
    exact hindex c

end

/-- With nobody faulty no run of deliveries is infinite, whoever sees whom, whatever is missed, and
whichever message is delivered next; and wherever it ends, each node indexes exactly what was given
to the nodes that its sights lead to, each triple delivered once. -/
theorem deliveries_end (k : ℕ) (hk : k ≤ 256) (policy : Policy) (hwin : 1 ≤ policy.window)
    (spuriousBudget : ℕ) (seeds : List (ℕ × Triple)) (es : List (ℕ × ℕ))
    (hes : ∀ e ∈ es, e.1 < k ∧ e.2 < k ∧ e.1 ≠ e.2) (acts : List Act)
    (hfresh : ((seeded k [] policy spuriousBudget seeds).startWith es).Fresh acts) :
    let s := ((seeded k [] policy spuriousBudget seeds).startWith es).run acts
    let held := fun i => seedsOf seeds i ++ arrivalsOf acts i
    (¬ ∃ run : ℕ → Sim, run 0 = s ∧ ∀ n, Delivers (run n) (run (n + 1)))
      ∧ ∀ s', Relation.ReflTransGen Delivers s s' → (∀ s'', ¬ Delivers s' s'') →
        ∀ i < k, (∀ c, s'.nodeHas i c ↔ c ∈ ledTo es k held i) ∧ s'.deficit i = 0
          ∧ s'.deliveries i = (ledTo es k held i \ (held i).toFinset).card := by
  intro s held
  obtain ⟨hacc, hend⟩ := (seeded_spec k [] policy spuriousBudget seeds).quiesces hwin
    (fun i => by rw [byzantine_seeded]; exact Bool.false_ne_true) hk
    (fun e he => mem_sights.mpr (hes e he)) acts hfresh
  refine ⟨fun ⟨run, h₀, hrun⟩ => no_infinite_run_of_acc hacc run h₀ hrun, fun s' hs' hnone => ?_⟩
  exact hend s' hs' (not_delivers_iff.mp hnone)

theorem deliveries_end_chain :
    let seeds := [(0, Triple.mock 1), (2, Triple.mock 2)]
    let es := [(0, 1), (1, 2), (2, 0)]
    let acts := [.step 0 [], .arrive 1 (Triple.mock 3), .step 1 [true]]
    let s := ((seeded 3 [] Policy.shipped 1 seeds).startWith es).run acts
    let held := fun i => seedsOf seeds i ++ arrivalsOf acts i
    (¬ ∃ run : ℕ → Sim, run 0 = s ∧ ∀ n, Delivers (run n) (run (n + 1)))
      ∧ ∀ s', Relation.ReflTransGen Delivers s s' → (∀ s'', ¬ Delivers s' s'') →
        ∀ i < 3, (∀ c, s'.nodeHas i c ↔ c ∈ ledTo es 3 held i) ∧ s'.deficit i = 0
          ∧ s'.deliveries i = (ledTo es 3 held i \ (held i).toFinset).card := by
  intro seeds es acts
  have hfresh : ((seeded 3 [] Policy.shipped 1 seeds).startWith es).Fresh acts := by decide +kernel
  exact deliveries_end 3 (by decide) Policy.shipped (by decide) 1 seeds es (by decide) acts hfresh

end Melissi.Sim
