import Melissi.Node.Failover
import Melissi.Wire.Minted
import Melissi.Wire.Positions

/-!
# Honest servers and their misses

Reference: `crates/wire/src/session.rs` and `crates/wire/src/adapter.rs`. A fetch asks its server
for a fresh page, from the settled high-water of the moment it is taken, and matches its wants
against it. A want that the page does not reach is missed though the server holds it, and the miss
is charged to the server.
-/

namespace Melissi.Wire

open Melissi.Common Melissi.Machine Melissi.Machine.PullState Melissi.Settlement Melissi.Node
open Melissi.Wire.Pb Melissi.Wire.FetchClient

variable {P : Primitives} {minted : MintedCodec}

/-- A fetch is carried out over a stream that loses nothing: the server read the `Get` when the
peers held `held` and had something to offer, and reads the `Want` now. -/
inductive Carried (codec : TripleCodec) (now : Holdings) : Flight → Event Triple → Prop
  | fetch {p : PeerId} {b : Bin} {start : ℕ} {want : List Triple} {held : Holdings}
    {asked told wanted got : List ℕ} {sent : Bytes} {outcomes : List (Triple × Outcome)}
    (hopen : ¬ (held.reserve p).Blocks b start)
    (hrun : deliver codec (held.reserve p) (now.reserve p) b start want asked told wanted got
      = .ok (sent, outcomes)) :
    Carried codec now ⟨.fetch p b start want, some held⟩ (.fetchResult p b outcomes)

/-- Every want is delivered, and nothing else is said of it. -/
def Delivers (want : List Triple) (outcomes : List (Triple × Outcome)) : Prop :=
  ∀ t ∈ want, ∀ o, (t, o) ∈ outcomes ↔ o = .delivered

/-- A page of the log from `start` on reaches `t`: fewer entries than a page holds stand before it.
And its address is not all zero bytes, which a client would read as "no longer held". -/
def Within (log : AppendLog Triple) (start : ℕ) (t : Triple) : Prop :=
  ¬ Unaddressed t ∧ ∃ x, (x, t) ∈ log.entries ∧ start ≤ x ∧ log.between start x < maxPage

theorem mem_page_iff {log : AppendLog Triple} {start : ℕ} {t : Triple} :
    t ∈ (log.page start maxPage).map (·.2)
      ↔ ∃ x, (x, t) ∈ log.entries ∧ start ≤ x ∧ log.between start x < maxPage := by
  simp only [List.mem_map, Prod.exists, exists_eq_right]
  exact exists_congr fun x => log.mem_page_iff start maxPage (x, t)

/-- What a want comes to at a server that still holds what it offered. -/
theorem verdict_iff {held now : Holdings} (hgrows : held.Grows now) {k : PeerBin} {start : ℕ}
    {t : Triple} : verdict ((held k).page start maxPage) (now.reserve k.peer) t = .delivered
      ↔ Within (held k) start t := by
  have hcases : verdict ((held k).page start maxPage) (now.reserve k.peer) t = .delivered
      ↔ t ∈ ((held k).page start maxPage).map (·.2) ∧ Served (now.reserve k.peer) t := by
    rw [verdict]
    split
    · next h => exact iff_of_true rfl h
    · next h => exact iff_of_false (by simp) h
  rw [hcases, mem_page_iff, Within, Served]
  constructor
  · exact fun h => ⟨h.2.2, h.1⟩
  · rintro ⟨haddr, x, hx, hin⟩
    exact ⟨⟨x, hx, hin⟩, Holdings.has_reserve ((hgrows k).subset hx), haddr⟩

/-- Whatever the pieces, a fetch that is carried out brings for each want its verdict. -/
theorem carried_page (hP : P.RecoverInvertsSign) (hc : MintedCodec.Reached P minted)
    {held : Holdings} {k : PeerBin} {start : ℕ} (hs : start ≤ u64Max)
    (hhead : (held k).head < u64Max) (hstored : ∀ e ∈ (held k).entries, e.2 ∈ minted.store)
    (hopen : ¬ (held.reserve k.peer).Blocks k.bin start) (now : Holdings) (want : List Triple)
    (asked told wanted got : List ℕ) : ∃ sent outcomes,
    deliver (minted.codec P) (held.reserve k.peer) (now.reserve k.peer) k.bin start want asked told
        wanted got = .ok (sent, outcomes)
      ∧ (∀ e, e ∈ outcomes ↔ e.1 ∈ want
        ∧ e.2 = verdict ((held k).page start maxPage) (now.reserve k.peer) e.1)
      ∧ (want.Nodup → (outcomes.map Prod.fst).Nodup) := by
  obtain ⟨outcomes, hrun, hmem, hnodup⟩ := deliver_page
    (names_storeCodec P (fun t => minted.store[t]?) (minted.validate P))
    (Holdings.inRange hs hhead) hopen
    (fun e he => hc.deliverable hP (hstored e (AppendLog.mem_of_mem_page he).1))
    (now.reserve k.peer) want asked told wanted got
  exact ⟨_, outcomes, hrun, hmem, hnodup⟩

/-- A fetch is served whole exactly if the page its server reads reaches all it wants. -/
theorem delivers_iff (hP : P.RecoverInvertsSign) (hc : MintedCodec.Reached P minted)
    {held now : Holdings} (hgrows : held.Grows now) {k : PeerBin} {start : ℕ} {want : List Triple}
    {outcomes : List (Triple × Outcome)} (hs : start ≤ u64Max) (hhead : (held k).head < u64Max)
    (hstored : ∀ e ∈ (held k).entries, e.2 ∈ minted.store)
    (h : Carried (minted.codec P) now ⟨.fetch k.peer k.bin start want, some held⟩
      (.fetchResult k.peer k.bin outcomes)) :
    Delivers want outcomes ↔ ∀ t ∈ want, Within (held k) start t := by
  cases h with
  | @fetch _ _ _ _ _ asked told wanted got sent _ hopen hrun =>
    obtain ⟨sent', outcomes', hrun', hmem, -⟩ :=
      carried_page hP hc hs hhead hstored hopen now want asked told wanted got
    rw [hrun'] at hrun
    obtain ⟨-, rfl⟩ := Prod.mk.inj (Except.ok.inj hrun)
    refine forall₂_congr fun t ht => ?_
    rw [← verdict_iff hgrows]
    constructor
    · exact fun h => (h _).mp ((hmem _).mpr ⟨ht, rfl⟩)
    · intro h o
      rw [hmem, and_iff_right ht]
      dsimp only
      rw [h]

namespace World

/-- The servers are honest and lose nothing: they hold only what is minted, and every fetch is
carried out. -/
def Honest (P : Primitives) (minted : MintedCodec) (w : World) : Move → Prop
  | .append _ _ t => t ∈ minted.store
  | .answer i (.fetchResult p b outcomes) => ∀ f, w.flight[i]? = some f →
    Carried (minted.codec P) w.logs f (.fetchResult p b outcomes)
  | _ => True

/-- If the move answers a fetch of `p`, the page its server has read reaches all it wants. -/
def Reaches (p : PeerId) (w : World) : Move → Prop
  | .answer i (.fetchResult q b _) => q = p → ∀ start want held,
    w.flight[i]? = some ⟨.fetch q b start want, some held⟩ →
      ∀ t ∈ want, Within (held ⟨q, b⟩) start t
  | _ => True

/-- If the move answers a fetch, everything it wants is delivered exactly if the page its server has
read reaches all of it. -/
def Exact (w : World) : Move → Prop
  | .answer i (.fetchResult p b outcomes) => ∀ start want held,
    w.flight[i]? = some ⟨.fetch p b start want, some held⟩ →
      (Delivers want outcomes ↔ ∀ t ∈ want, Within (held ⟨p, b⟩) start t)
  | _ => True

/-- What a run against honest servers keeps. -/
structure Stocked (minted : MintedCodec) (w : World) : Prop where
  sound : w.Sound
  stored : ∀ k, ∀ e ∈ (w.logs k).entries, e.2 ∈ minted.store
  cfg : w.node.m.cfg = Config.production

theorem Stocked.next {w : World} (h : w.Stocked minted) {mv : Move}
    (ha : w.Admits (minted.codec P) mv) (hh : w.Honest P minted mv) :
    (w.next mv).Stocked minted where
  sound := h.sound.next (names_storeCodec P _ _) ha
  stored k e he := by
    cases mv with
    | append k' b t =>
      rcases Holdings.mem_grow he with he | rfl
      · exact h.stored k e he
      · exact hh
    | _ => exact h.stored k e he
  cfg := by
    rw [node_next]
    cases fed mv with
    | none => exact h.cfg
    | some ev => exact (w.node.calls_handle ev).cfg_eq.trans h.cfg

/-- A fetch that is answered, and the page it was answered with. -/
theorem Stocked.delivers_iff (hP : P.RecoverInvertsSign) (hc : MintedCodec.Reached P minted)
    {w : World} (h : w.Stocked minted) {i : ℕ} {p : PeerId} {b : Bin} {start : ℕ} {want : List Triple}
    {held : Holdings} {outcomes : List (Triple × Outcome)}
    (hf : w.flight[i]? = some ⟨.fetch p b start want, some held⟩)
    (hh : w.Honest P minted (.answer i (.fetchResult p b outcomes))) :
    Delivers want outcomes ↔ ∀ t ∈ want, Within (held ⟨p, b⟩) start t := by
  have hmem := List.mem_of_getElem? hf
  have hgrows := h.sound.seen _ hmem held rfl
  have hstart := h.sound.fetches _ hmem p b start want rfl
  have hlt := h.sound.head_lt ⟨p, b⟩
  exact Wire.delivers_iff (k := ⟨p, b⟩) hP hc hgrows (by omega)
    ((hgrows.head_le _).trans_lt hlt) (fun e he => h.stored _ e ((hgrows _).subset he)) (hh _ hf)

/-- While the pages reach all that is wanted of a peer, no move bars it. -/
theorem Stocked.unbarred (hP : P.RecoverInvertsSign) (hc : MintedCodec.Reached P minted) {w : World}
    (h : w.Stocked minted) {mv : Move} (ha : w.Admits (minted.codec P) mv)
    (hh : w.Honest P minted mv) {p : PeerId} (hr : w.Reaches p mv)
    (hb : ∀ c, ¬ w.node.m.Barred c p) (c : Triple) : ¬ (w.next mv).node.m.Barred c p := by
  rw [node_next]
  cases hev : fed mv with
  | none => exact hb c
  | some ev =>
    intro hbar
    refine ((barred_ingested h.cfg ev c p).mp (barred_of_handle hbar)).elim (hb c) fun hmiss => ?_
    cases ev with
    | fetchResult q b outcomes =>
      obtain ⟨rfl, pre, post, rfl, -⟩ := hmiss
      cases mv with
      | feed ev =>
        obtain rfl := Option.some.inj hev
        cases ha
      | answer i ev =>
        obtain rfl := Option.some.inj hev
        obtain ⟨f, hf, hans⟩ := ha
        cases hans with
        | @fetch _ _ start want seen _ hout =>
          cases hh _ hf with
          | @fetch _ _ _ _ held =>
            have hdel := (h.delivers_iff hP hc hf hh).mpr (hr rfl start want held hf)
            have hin : (c, Outcome.missed) ∈ pre ++ (c, .missed) :: post := by simp
            cases (hdel c (hout _ hin) .missed).mp hin
      | _ => cases hev
    | _ => exact hmiss

/-- An honest server is charged with a miss only where the page it re-offers does not reach what is
wanted. Along every run against servers that evict nothing and hold only what is minted, each fetch
delivers all it wants exactly if fewer entries than a page holds stand in the peer's bin from the
fetch's start up to each of them, and no address is all zeros; and a peer whose fetches are all of
that kind is never barred for anything. -/
theorem honest_server (hP : P.RecoverInvertsSign) (hc : MintedCodec.Reached P minted) (radius : Bin)
    (policy : Policy) (held : List Triple) (logs : Holdings) (hlogs : ∀ k, (logs k).head < u64Max)
    (hstored : ∀ k, ∀ e ∈ (logs k).entries, e.2 ∈ minted.store) (mvs : List Move)
    (ha : (init (start Config.production radius policy held) logs).Along
      (Admits (minted.codec P)) mvs)
    (hh : (init (start Config.production radius policy held) logs).Along (Honest P minted) mvs) :
    (init (start Config.production radius policy held) logs).Along Exact mvs
      ∧ ∀ p, (init (start Config.production radius policy held) logs).Along (Reaches p) mvs →
        ∀ c, ¬ ((init (start Config.production radius policy held) logs).play
          mvs).node.m.Barred c p := by
  obtain ⟨hcfg, -, -, hexcl, -⟩ := start_machine_frame Config.production radius policy held
  have hinit : (init (start Config.production radius policy held) logs).Stocked minted :=
    ⟨sound_init _ radius policy held hlogs, hstored, hcfg⟩
  constructor
  · refine ((ha.and hh).run hinit fun w mv h hmv => ⟨h.next hmv.1 hmv.2, ?_⟩).2
    cases mv with
    | answer i ev =>
      cases ev with
      | fetchResult p b outcomes => exact fun start want held hf => h.delivers_iff hP hc hf hmv.2
      | _ => trivial
    | _ => trivial
  · intro p hr
    have hbar : ∀ c, ¬ (start Config.production radius policy held).m.Barred c p := by
      intro c
      rw [Barred, hexcl]
      simp
    exact (((ha.and hh).and hr).run (Q := fun _ _ => True)
      (I := fun w => w.Stocked minted ∧ ∀ c, ¬ w.node.m.Barred c p) ⟨hinit, hbar⟩
      fun w mv h hmv => ⟨⟨h.1.next hmv.1.1 hmv.1.2,
        h.1.unbarred hP hc hmv.1.1 hmv.1.2 hmv.2 h.2⟩, trivial⟩).1.2

/-! ## A stale offer is charged to its server -/

/-- Zero bytes can be minted, and what was minted stays. -/
theorem mint_zeros {codec : MintedCodec} (hbatch : codec.batchId = (zeros 0).batchId) {n : ℕ}
    (haddr : chunkAddress .plain (List.replicate n 0) = .ok (zeros n).address) :
    ∃ codec', codec.mint .plain (List.replicate n 0) 0 0 = .ok (codec', zeros n)
      ∧ codec'.batchId = codec.batchId ∧ ∀ t, t = zeros n ∨ t ∈ codec.store → t ∈ codec'.store := by
  obtain ⟨⟨codec', t⟩, h⟩ : ∃ r, codec.mint .plain (List.replicate n 0) 0 0 = .ok r := by
    rw [MintedCodec.mint, haddr]
    exact ⟨_, rfl⟩
  obtain ⟨address, sig, haddr', -, ht, hstore⟩ := MintedCodec.mint_spec h
  obtain rfl : (zeros n).address = address := Except.ok.inj (haddr.symm.trans haddr')
  -- the hash cuts the stamp off after its batch
  have hhash : ∀ rest,
      Primitives.plain.keccak256 (codec.batchId.1 ++ rest) = (zeros n).stampHash := by
    intro rest
    refine Subtype.ext ?_
    show (codec.batchId.1 ++ rest ++ _).take 32 = _
    rw [List.append_assoc, List.take_left' codec.batchId.2, hbatch]
    rfl
  obtain rfl : t = zeros n := by
    rw [ht, List.append_assoc, List.append_assoc, hhash, hbatch]
    rfl
  refine ⟨codec', h, by rw [hstore], fun t ht => ?_⟩
  rw [hstore]
  rcases ht with rfl | ht
  · simp
  · simp [ht]

/-- A codec that has minted what the peer of the stale offer comes to hold. -/
theorem minted_zeros : ∃ codec, MintedCodec.Reached .plain codec
    ∧ zeros 5 ∈ codec.store ∧ zeros 10 ∈ codec.store ∧ zeros 20 ∈ codec.store := by
  obtain ⟨c₀, hnew, hb₀⟩ : ∃ c₀, MintedCodec.new .plain (Triple.tag 1 1) 5 = .ok c₀
      ∧ c₀.batchId = (zeros 0).batchId := ⟨_, rfl, rfl⟩
  have haddr : ∀ n ∈ [5, 10, 20],
      chunkAddress .plain (List.replicate n 0) = .ok (zeros n).address := by
    have hbytes : ∀ n ∈ [5, 10, 20], n ≤ chunkSize ∧ (Primitives.plain.keccak256
        (Primitives.toLeBytes n ++ (bmtRoot .plain 6
          (List.replicate n 0 ++ List.replicate (chunkSize - n) 0)).1)).1 = (zeros n).address.1 := by
      decide +kernel
    intro n hn
    obtain ⟨hle, heq⟩ := hbytes n hn
    rw [chunkAddress, List.length_replicate, if_pos hle]
    exact congrArg _ (Subtype.ext heq)
  obtain ⟨c₁, h₁, hb₁, hs₁⟩ := mint_zeros hb₀ (haddr 5 (by decide))
  obtain ⟨c₂, h₂, hb₂, hs₂⟩ := mint_zeros (hb₁.trans hb₀) (haddr 10 (by decide))
  obtain ⟨c₃, h₃, -, hs₃⟩ := mint_zeros ((hb₂.trans hb₁).trans hb₀) (haddr 20 (by decide))
  refine ⟨c₃, .mint (.mint (.mint (.new hnew) h₁) h₂) h₃, ?_, ?_, ?_⟩
  · exact hs₃ _ (.inr (hs₂ _ (.inr (hs₁ _ (.inl rfl)))))
  · exact hs₃ _ (.inr (hs₂ _ (.inl rfl)))
  · exact hs₃ _ (.inl rfl)

/-- A server reads what it holds at the time. -/
theorem getElem?_read {w : World} {i : ℕ} {op : Op Triple}
    (hop : (w.flight[i]?).map Flight.op = some op) :
    (w.next (.read i)).flight[i]? = some ⟨op, some w.logs⟩ := by
  obtain ⟨⟨op, seen⟩, hf, rfl⟩ := Option.map_eq_some_iff.mp hop
  rw [next, List.getElem?_modify, hf]
  simp

/-- A fetch whose server has something to offer can be carried out. -/
theorem exists_carried (hP : P.RecoverInvertsSign) (hc : MintedCodec.Reached P minted) {w : World}
    {i : ℕ} {p : PeerId} {b : Bin} {start : ℕ} {want : List Triple}
    (hop : (w.flight[i]?).map Flight.op = some (.fetch p b start want)) (hs : start ≤ u64Max)
    (hhead : (w.logs ⟨p, b⟩).head < u64Max)
    (hstored : ∀ e ∈ (w.logs ⟨p, b⟩).entries, e.2 ∈ minted.store)
    (hopen : (w.logs ⟨p, b⟩).page start maxPage ≠ []) : ∃ outcomes,
    (w.next (.read i)).Admits (minted.codec P) (.answer i (.fetchResult p b outcomes))
      ∧ (w.next (.read i)).Honest P minted (.answer i (.fetchResult p b outcomes))
      ∧ (∀ e, e ∈ outcomes ↔ e.1 ∈ want
        ∧ e.2 = verdict ((w.logs ⟨p, b⟩).page start maxPage) (w.logs.reserve p) e.1)
      ∧ (want.Nodup → (outcomes.map Prod.fst).Nodup) := by
  obtain ⟨sent, outcomes, hrun, hmem, hnodup⟩ := carried_page (k := ⟨p, b⟩) hP hc hs hhead hstored
    (fun hblocks => hopen hblocks.1) w.logs want [] [] [] []
  have hread := getElem?_read hop
  refine ⟨outcomes, ⟨_, hread, .fetch fun e he => ((hmem e).mp he).1⟩, fun f hf' => ?_, hmem,
    hnodup⟩
  obtain rfl := Option.some.inj (hread.symm.trans hf')
  exact .fetch (fun hblocks => hopen hblocks.1) hrun

/-- What the stale offer names is asked for, from 20 on. -/
def asked : List Move := [.take, .lose 0, .take, .read 0]

theorem fetched_overtaken : ((fresh.play (overtaken.take 8)).flight[0]?).map Flight.op
    = some (.fetch 1 0 0 [zeros 5]) := by
  decide +kernel

/-- The server of the first fetch is honest: what it delivers is what arrives. -/
theorem honest_overtaken {minted : MintedCodec} (hc : MintedCodec.Reached .plain minted)
    (h5 : zeros 5 ∈ minted.store) : fresh.Along (Honest .plain minted) (overtaken ++ [arrived]) := by
  have hentries : ((fresh.play (overtaken.take 8)).logs ⟨1, 0⟩).entries = [(5, zeros 5)] := by
    decide +kernel
  obtain ⟨outcomes, -, hhonest, hmem, hnodup⟩ :=
    exists_carried Primitives.plain_recoverInvertsSign hc fetched_overtaken (Nat.zero_le _)
      (by decide +kernel) (by simpa [hentries] using h5) (by decide +kernel)
  have hverdict : verdict (((fresh.play (overtaken.take 8)).logs ⟨1, 0⟩).page 0 maxPage)
      ((fresh.play (overtaken.take 8)).logs.reserve 1) (zeros 5) = .delivered := by decide +kernel
  have hone : outcomes.Perm [(zeros 5, .delivered)] := by
    refine (List.perm_ext_iff_of_nodup (hnodup (List.nodup_singleton _)).of_map
      (List.nodup_singleton _)).mpr fun ⟨t, o⟩ => ?_
    rw [hmem, List.mem_singleton, List.mem_singleton, Prod.mk.injEq]
    refine and_congr_right fun ht => ?_
    dsimp only at ht ⊢
    rw [ht, hverdict]
  rw [List.perm_singleton.mp hone] at hhonest
  exact ⟨trivial, trivial, trivial, trivial, trivial, trivial, trivial, trivial, trivial, hhonest,
    trivial⟩

theorem stored_sparse {minted : MintedCodec} (h5 : zeros 5 ∈ minted.store) (k : PeerBin) :
    ∀ e ∈ (sparse k).entries, e.2 ∈ minted.store := by
  intro e he
  rw [sparse, AppendLog.mem_append] at he
  rcases he with he | rfl
  · cases he
  · exact h5

/-- The first fetch is from 0 on, and the page of its server reaches the entry at 5. -/
theorem reaches_overtaken : fresh.Along (Reaches 1) (overtaken ++ [arrived]) := by
  refine ⟨trivial, trivial, trivial, trivial, trivial, trivial, trivial, trivial, trivial, ?_,
    trivial⟩
  intro _ start want held hf t ht
  have hread := (getElem?_read fetched_overtaken).symm.trans hf
  simp only [Option.some.injEq, Flight.mk.injEq, Op.fetch.injEq] at hread
  obtain ⟨⟨-, -, rfl, rfl⟩, rfl⟩ := hread
  rw [List.mem_singleton.mp ht]
  exact ⟨by decide +kernel, 5, by decide +kernel, Nat.zero_le _, by decide +kernel⟩

theorem honest_server_overtaken : ∃ minted : MintedCodec, zeros 5 ∈ minted.store
    ∧ fresh.Along Exact (overtaken ++ [arrived])
    ∧ ∀ c, ¬ (fresh.play (overtaken ++ [arrived])).node.m.Barred c 1 := by
  obtain ⟨minted, hc, h5, -, -⟩ := minted_zeros
  obtain ⟨hexact, hbarred⟩ := honest_server Primitives.plain_recoverInvertsSign hc 0 Policy.shipped []
    sparse head_sparse (stored_sparse h5) (overtaken ++ [arrived])
    (admits_overtaken (names_storeCodec _ _ _)) (honest_overtaken hc h5)
  exact ⟨minted, h5, hexact, hbarred 1 reaches_overtaken⟩

/-- The wants of the stale offer are fetched from where the interval went to: the entry at 10, which
its server holds, is missed. -/
theorem honest_server_charged : ∃ (minted : MintedCodec) (outcomes : List (Triple × Outcome)),
    MintedCodec.Reached .plain minted ∧ (∀ k, ∀ e ∈ (sparse k).entries, e.2 ∈ minted.store)
      ∧ fresh.Along (fun w mv => w.Admits (minted.codec .plain) mv ∧ w.Honest .plain minted mv)
        (overtaken ++ [arrived] ++ (late ++ [stale])
          ++ (asked ++ [.answer 0 (.fetchResult 1 0 outcomes)]))
      ∧ (zeros 10, .missed) ∈ outcomes := by
  obtain ⟨minted, hc, h5, h10, h20⟩ := minted_zeros
  let w := fresh.play (overtaken ++ [arrived] ++ (late ++ [stale]) ++ asked.take 3)
  have hop : (w.flight[0]?).map Flight.op = some (.fetch 1 0 20 [zeros 10, zeros 20]) := by
    decide +kernel
  have hentries : (w.logs ⟨1, 0⟩).entries = [(5, zeros 5), (10, zeros 10), (20, zeros 20)] := by
    decide +kernel
  obtain ⟨outcomes, hadmits, hhonest, hmem, -⟩ :=
    exists_carried Primitives.plain_recoverInvertsSign hc hop (by decide) (by decide +kernel)
      (by simp [hentries, h5, h10, h20]) (by decide +kernel)
  have hverdict : verdict ((w.logs ⟨1, 0⟩).page 20 maxPage) (w.logs.reserve 1) (zeros 10)
      = .missed := by decide +kernel
  have hnames := names_storeCodec .plain (fun t => minted.store[t]?) (minted.validate .plain)
  refine ⟨minted, outcomes, hc, stored_sparse h5, ?_,
    (hmem _).mpr ⟨List.mem_cons_self, hverdict.symm⟩⟩
  refine Along.and ?_ ?_
  · exact along_append.mpr
      ⟨admits_stale hnames, trivial, trivial, trivial, trivial, hadmits, trivial⟩
  · refine along_append.mpr ⟨along_append.mpr ⟨honest_overtaken hc h5, ?_⟩,
      trivial, trivial, trivial, trivial, hhonest, trivial⟩
    exact ⟨h10, h20, trivial, trivial, trivial, trivial⟩

end World

end Melissi.Wire
