import Melissi.Net.Hive
import Melissi.Overlay.Proximity
import Melissi.Wire.Drive

/-!
# Assembling the supply from a push

Reference: `crates/net/src/runtime.rs` and `crates/net/src/underlay.rs`. The peers of a push that
lie in our tile are dialled; those that answer the handshake are numbered, and the node is driven
over a carrier that finds a peer by its number. The multiaddr parser, the handshakes and the streams
are parameters.
-/

namespace Melissi.Net

open Melissi.Machine Melissi.Node Melissi.Wire

/-- A component of a multiaddr. -/
inductive Protocol (L : Type) where
  | p2p (id : L)
  | other (bytes : Bytes)
deriving DecidableEq

abbrev Multiaddr (L : Type) : Type := List (Protocol L)

/-- The peer that a component names. -/
def Protocol.p2pId {L : Type} : Protocol L → Option L
  | p2p id => some id
  | other _ => none

/-- A discovered neighbour and the libp2p peer id to dial it by. -/
structure Neighbour (L : Type) where
  peer : DiscoveredPeer
  libp2p : L
  proximity : UInt8

/-- A peer that the underlay holds. -/
structure ActivePeer (L : Type) where
  overlay : Address
  libp2p : L
  fullNode : Bool

section Connecting

variable {L ρ : Type} (parse : Bytes → Option (Multiaddr L))
  (handshake : ρ → L → Multiaddr L → Option (ByteArr 20) × ρ)

/-- The libp2p peer id in an underlay, if it has one. -/
def libp2pPeerOf (underlay : Bytes) : Option L :=
  (parse underlay).bind fun addr => addr.findSome? Protocol.p2pId

/-- Of the discovered peers, those of our tile that can be dialled. -/
def selectNeighbours (nbhd : Overlay.Neighbourhood) (discovered : List DiscoveredPeer) :
    List (Neighbour L) :=
  (discovered.filter fun p => nbhd.isNeighbour p.overlay).filterMap fun p =>
    (libp2pPeerOf parse p.underlay).map fun libp2p =>
      ⟨p, libp2p, Overlay.proximity nbhd.overlay.1 p.overlay.1⟩

/-- Dial a neighbour: it is active once the handshake succeeds. -/
def connectOne (s : List (ActivePeer L) × ρ) (n : Neighbour L) : List (ActivePeer L) × ρ :=
  match parse n.peer.underlay with
  | none => s
  | some addr =>
    let answer := handshake s.2 n.libp2p addr
    (if answer.1.isSome then s.1 ++ [⟨n.peer.overlay, n.libp2p, true⟩] else s.1, answer.2)

/-- Dial the neighbours in turn. -/
def connect (neighbours : List (Neighbour L)) (r : ρ) : List (ActivePeer L) × ρ :=
  neighbours.foldl (connectOne parse handshake) ([], r)

end Connecting

section Pulling

variable {L ρ C : Type}

/-- Give a peer of our tile the next number. -/
def numberPeer (nbhd : Overlay.Neighbourhood) (s : List (PeerId × L) × PeerId) (p : ActivePeer L) :
    Except String (List (PeerId × L) × PeerId) :=
  if nbhd.isNeighbour p.overlay then
    if s.2 = 255 then .error "attempt to add with overflow"
    else .ok (s.1 ++ [(s.2, p.libp2p)], s.2 + 1)
  else .ok s

/-- The numbered supply of `pull`. -/
def connected (nbhd : Overlay.Neighbourhood) (active : List (ActivePeer L)) :
    Except String (List (PeerId × L)) :=
  (active.foldlM (numberPeer nbhd) ([], 1)).map Prod.fst

/-- The libp2p peer of a number: the first entry that has it. -/
def target (peers : List (PeerId × L)) (m : PeerId) : Option L :=
  (peers.find? fun e => e.1 = m).map Prod.snd

/-- The carrier: an operation is run with the libp2p peer of its number. -/
def libp2pRun (runOp : ρ → L → Op C → Option (Event C) × ρ) (peers : List (PeerId × L)) (r : ρ)
    (op : Op C) : Option (Event C) × ρ :=
  match target peers op.peer with
  | none => (none, r)
  | some libp2p => runOp r libp2p op

variable [LinearOrder C]

/-- Announce the numbered peers and drive the session over the carrier. -/
def assembleAndPull (runOp : ρ → L → Op C → Option (Event C) × ρ) (neighbours : List (PeerId × L))
    (session : Session C) (r : ρ) : Session C × ρ :=
  drive (libp2pRun runOp neighbours) (neighbours.foldl (fun s e => s.addPeer e.1) session) r

/-- Pull from the active peers of our tile. -/
def pull (runOp : ρ → L → Op C → Option (Event C) × ρ) (nbhd : Overlay.Neighbourhood)
    (active : List (ActivePeer L)) (session : Session C) (r : ρ) :
    Except String (Session C × ρ) :=
  (connected nbhd active).map fun supply => assembleAndPull runOp supply session r

end Pulling

/-! ## Numbering -/

section Numbering

variable {L : Type} (nbhd : Overlay.Neighbourhood)

/-- The active peers of our tile. -/
def tile (active : List (ActivePeer L)) : List (ActivePeer L) :=
  active.filter fun p => nbhd.isNeighbour p.overlay

/-- Peers numbered from one. -/
def numbered (ps : List L) : List (PeerId × L) := (ps.zipIdx 1).map fun e => (UInt8.ofNat e.2, e.1)

theorem numbered_append (ps : List L) (p : L) :
    numbered (ps ++ [p]) = numbered ps ++ [(UInt8.ofNat (ps.length + 1), p)] := by
  rw [numbered, List.zipIdx_append, List.map_append, Nat.add_comm]
  rfl

@[simp] theorem map_snd_numbered (ps : List L) : (numbered ps).map Prod.snd = ps := by
  rw [numbered, List.map_map]
  exact List.zipIdx_map_fst 1 ps

/-- As long as they fit in a byte, the numbers are distinct. -/
theorem nodup_numbered {ps : List L} (h : ps.length ≤ 254) :
    ((numbered ps).map Prod.fst).Nodup := by
  have hmap : (numbered ps).map Prod.fst = (List.range' 1 ps.length).map UInt8.ofNat := by
    rw [numbered, List.map_map, ← List.zipIdx_map_snd, List.map_map]
    rfl
  rw [hmap]
  -- below 256 the bytes of two numbers differ as the numbers do
  refine List.Nodup.map_on (fun a ha b hb hab => ?_) List.nodup_range'
  rw [List.mem_range'_1] at ha hb
  have hval := congrArg UInt8.toNat hab
  rw [UInt8.toNat_ofNat', UInt8.toNat_ofNat'] at hval
  omega

/-- After at most 254 peers the next of the tile gets the next number, unless that was the last. -/
theorem numberPeer_numbered {ps : List L} (h : ps.length ≤ 254) {p : ActivePeer L}
    (hp : nbhd.isNeighbour p.overlay = true) :
    numberPeer nbhd (numbered ps, UInt8.ofNat (ps.length + 1)) p
      = if ps.length = 254 then .error "attempt to add with overflow"
        else .ok (numbered (ps ++ [p.libp2p]), UInt8.ofNat ((ps ++ [p.libp2p]).length + 1)) := by
  have hval : (UInt8.ofNat (ps.length + 1)).toNat = ps.length + 1 := by
    rw [UInt8.toNat_ofNat']
    omega
  have hmax : UInt8.ofNat (ps.length + 1) = 255 ↔ ps.length = 254 := by
    rw [← UInt8.toNat_inj, hval]
    exact Nat.succ_inj
  have hnext : UInt8.ofNat (ps.length + 1) + 1 = UInt8.ofNat ((ps ++ [p.libp2p]).length + 1) := by
    rw [List.length_append, List.length_singleton, UInt8.ofNat_add (ps.length + 1) 1]
    rfl
  rw [numberPeer, if_pos hp, numbered_append, hnext]
  simp only [hmax]

/-- The loop numbers the peers of the tile one after the other, and stops where the number after the
last no longer fits. -/
theorem foldlM_numberPeer (active : List (ActivePeer L)) {ps : List L} (h : ps.length ≤ 254) :
    (active.foldlM (numberPeer nbhd) (numbered ps, UInt8.ofNat (ps.length + 1))).map Prod.fst
      = if ps.length + (tile nbhd active).length ≤ 254
        then .ok (numbered (ps ++ (tile nbhd active).map ActivePeer.libp2p))
        else .error "attempt to add with overflow" := by
  induction active generalizing ps with
  | nil =>
    rw [if_pos (by simpa [tile] using h)]
    simp [tile, Except.map, pure, Except.pure]
  | cons p active ih =>
    rw [List.foldlM_cons]
    by_cases hp : nbhd.isNeighbour p.overlay = true
    · have htile : tile nbhd (p :: active) = p :: tile nbhd active := List.filter_cons_of_pos hp
      rw [numberPeer_numbered nbhd h hp, htile, List.length_cons, List.map_cons]
      by_cases hfull : ps.length = 254
      · -- 254 peers have their numbers: this one gets 255, and the next number overflows
        rw [if_pos hfull, if_neg (by omega)]
        rfl
      · have hlen : (ps ++ [p.libp2p]).length ≤ 254 := by
          rw [List.length_append, List.length_singleton]
          omega
        rw [if_neg hfull]
        refine (ih hlen).trans ?_
        rw [List.append_assoc, List.singleton_append, List.length_append, List.length_singleton,
          Nat.add_assoc, Nat.add_comm 1]
    · have htile : tile nbhd (p :: active) = tile nbhd active := List.filter_cons_of_neg hp
      rw [numberPeer, if_neg hp, htile]
      exact ih h

/-- The supply is the active peers of our tile in order, if there are at most 254. -/
theorem connected_eq (active : List (ActivePeer L)) :
    connected nbhd active
      = if (tile nbhd active).length ≤ 254
        then .ok (numbered ((tile nbhd active).map ActivePeer.libp2p))
        else .error "attempt to add with overflow" := by
  have h := @foldlM_numberPeer L nbhd active [] (Nat.zero_le 254)
  simp only [List.length_nil, Nat.zero_add, List.nil_append] at h
  exact h

/-- A pull goes wrong exactly if the tile has more active peers than there are numbers. -/
theorem pull_error {ρ C : Type} [LinearOrder C] (runOp : ρ → L → Op C → Option (Event C) × ρ)
    (active : List (ActivePeer L)) (session : Session C) (r : ρ) :
    pull runOp nbhd active session r = .error "attempt to add with overflow"
      ↔ 254 < (tile nbhd active).length := by
  rw [pull, connected_eq]
  split_ifs with h
  · exact iff_of_false nofun (by omega)
  · exact iff_of_true rfl (by omega)

end Numbering

/-! ## What a push makes of the supply -/

section Supply

variable {L ρ : Type} (parse : Bytes → Option (Multiaddr L))
  (handshake : ρ → L → Multiaddr L → Option (ByteArr 20) × ρ) (nbhd : Overlay.Neighbourhood)

/-- The libp2p peer that a discovered peer is dialled by: none outside our tile. -/
def dialled (p : DiscoveredPeer) : Option L :=
  if nbhd.isNeighbour p.overlay then libp2pPeerOf parse p.underlay else none

/-- The active peers after a push. -/
def activePeers (discovered : List DiscoveredPeer) (r : ρ) : List (ActivePeer L) :=
  (connect parse handshake (selectNeighbours parse nbhd discovered) r).1

/-- The active peer that a neighbour becomes. -/
def Neighbour.active (n : Neighbour L) : ActivePeer L := ⟨n.peer.overlay, n.libp2p, true⟩

theorem mem_selectNeighbours {discovered : List DiscoveredPeer} {n : Neighbour L}
    (h : n ∈ selectNeighbours parse nbhd discovered) :
    n.peer ∈ discovered ∧ nbhd.isNeighbour n.peer.overlay = true
      ∧ libp2pPeerOf parse n.peer.underlay = some n.libp2p := by
  obtain ⟨p, hp, hn⟩ := List.mem_filterMap.mp h
  obtain ⟨hmem, hnear⟩ := List.mem_filter.mp hp
  obtain ⟨libp2p, hlibp2p, rfl⟩ := Option.map_eq_some_iff.mp hn
  exact ⟨hmem, hnear, hlibp2p⟩

/-- A discovered peer of our tile that can be dialled is selected. -/
theorem selected_of_mem {discovered : List DiscoveredPeer} {p : DiscoveredPeer}
    (hp : p ∈ discovered) (hnear : nbhd.isNeighbour p.overlay = true) {libp2p : L}
    (hlibp2p : libp2pPeerOf parse p.underlay = some libp2p) :
    ∃ n ∈ selectNeighbours parse nbhd discovered, n.peer = p := by
  have hmem : p ∈ discovered.filter fun p => nbhd.isNeighbour p.overlay :=
    List.mem_filter.mpr ⟨hp, hnear⟩
  exact ⟨⟨p, libp2p, _⟩, List.mem_filterMap.mpr ⟨p, hmem, by rw [hlibp2p]; rfl⟩, rfl⟩

theorem map_libp2p_selectNeighbours (discovered : List DiscoveredPeer) :
    (selectNeighbours parse nbhd discovered).map Neighbour.libp2p
      = discovered.filterMap (dialled parse nbhd) := by
  rw [selectNeighbours, List.map_filterMap, List.filterMap_filter]
  refine List.filterMap_congr fun p _ => ?_
  rw [dialled]
  split_ifs
  · rw [Option.map_map]
    exact Option.map_id'
  · rfl

/-- Where every handshake succeeds, every neighbour becomes active. -/
theorem foldl_connectOne (hs : ∀ r l addr, (handshake r l addr).1.isSome) {ns : List (Neighbour L)}
    (hns : ∀ n ∈ ns, libp2pPeerOf parse n.peer.underlay = some n.libp2p)
    (s : List (ActivePeer L) × ρ) :
    (ns.foldl (connectOne parse handshake) s).1 = s.1 ++ ns.map Neighbour.active := by
  induction ns generalizing s with
  | nil => exact (List.append_nil _).symm
  | cons n ns ih =>
    -- the underlay was parsed once already, so the loop does not pass over the neighbour
    obtain ⟨addr, haddr, -⟩ := Option.bind_eq_some_iff.mp (hns n List.mem_cons_self)
    rw [List.foldl_cons, ih fun n' hn' => hns n' (List.mem_cons_of_mem _ hn'), connectOne, haddr]
    simp only [hs, if_true]
    rw [List.append_assoc]
    rfl

theorem activePeers_eq (hs : ∀ r l addr, (handshake r l addr).1.isSome)
    (discovered : List DiscoveredPeer) (r : ρ) :
    activePeers parse handshake nbhd discovered r
      = (selectNeighbours parse nbhd discovered).map Neighbour.active :=
  foldl_connectOne parse handshake hs (fun _ hn => (mem_selectNeighbours parse nbhd hn).2.2) _

/-- What was selected lies in our tile. -/
theorem tile_activePeers (hs : ∀ r l addr, (handshake r l addr).1.isSome)
    (discovered : List DiscoveredPeer) (r : ρ) :
    tile nbhd (activePeers parse handshake nbhd discovered r)
      = (selectNeighbours parse nbhd discovered).map Neighbour.active := by
  rw [activePeers_eq parse handshake nbhd hs, tile, List.filter_eq_self]
  intro p hp
  obtain ⟨n, hn, rfl⟩ := List.mem_map.mp hp
  exact (mem_selectNeighbours parse nbhd hn).2.1

/-- Where every handshake succeeds, the supply is what was dialled. -/
theorem connected_activePeers (hs : ∀ r l addr, (handshake r l addr).1.isSome)
    (discovered : List DiscoveredPeer) (r : ρ) :
    connected nbhd (activePeers parse handshake nbhd discovered r)
      = if (discovered.filterMap (dialled parse nbhd)).length ≤ 254
        then .ok (numbered (discovered.filterMap (dialled parse nbhd)))
        else .error "attempt to add with overflow" := by
  have hmap : ((selectNeighbours parse nbhd discovered).map Neighbour.active).map ActivePeer.libp2p
      = discovered.filterMap (dialled parse nbhd) := by
    rw [List.map_map, ← map_libp2p_selectNeighbours]
    rfl
  have hlen : ((selectNeighbours parse nbhd discovered).map Neighbour.active).length
      = (discovered.filterMap (dialled parse nbhd)).length := by
    rw [← hmap, List.length_map, List.length_map, List.length_map]
  rw [connected_eq, tile_activePeers parse handshake nbhd hs, hmap, hlen]

/-- Our own overlay is in our tile, whatever the radius. -/
theorem isNeighbour_self (nbhd : Overlay.Neighbourhood) : nbhd.isNeighbour nbhd.overlay = true := by
  have hmax : 255 ≤ (Overlay.proximity nbhd.overlay.1 nbhd.overlay.1).toNat :=
    (Overlay.le_proximity _ _ (le_refl 255)).mpr fun _ _ => rfl
  have hradius := nbhd.radius.toNat_lt
  rw [Overlay.Neighbourhood.isNeighbour, decide_eq_true_eq]
  exact UInt8.le_iff_toNat_le.mpr (by omega)

/-! ## Distinct others -/

/-- The supply numbered from the active peers of our tile is a set of distinct other peers, and what
is asked of one is asked of the peer that was numbered. -/
structure DistinctOthers (active : List (ActivePeer L)) (supply : List (PeerId × L)) : Prop where
  numbered : supply.map Prod.snd = (tile nbhd active).map ActivePeer.libp2p
  ids : (supply.map Prod.fst).Nodup
  libp2p : (supply.map Prod.snd).Nodup
  others : ∀ p ∈ tile nbhd active, p.overlay ≠ nbhd.overlay
  routes : ∀ (C σ : Type) (runOp : σ → L → Op C → Option (Event C) × σ) (s : σ) (op : Op C),
    ∀ e ∈ supply, op.peer = e.1 → libp2pRun runOp supply s op = runOp s e.2 op
  apart : ∀ e ∈ supply, ∀ e' ∈ supply, e.1 ≠ e'.1 → e.2 ≠ e'.2

/-- A push gives rise to such a supply. -/
def SuppliesDistinct (discovered : List DiscoveredPeer) (r : ρ) : Prop :=
  ∃ supply, connected nbhd (activePeers parse handshake nbhd discovered r) = .ok supply
    ∧ DistinctOthers nbhd (activePeers parse handshake nbhd discovered r) supply

/-- What has to hold of a push: few enough peers to dial, no two by the same libp2p peer, and none
with our own overlay. -/
structure DistinctPush (discovered : List DiscoveredPeer) : Prop where
  few : (discovered.countP fun p => (dialled parse nbhd p).isSome) ≤ 254
  libp2p : discovered.Pairwise fun p q => ∀ l, dialled parse nbhd p = some l →
    dialled parse nbhd q ≠ some l
  others : ∀ p ∈ discovered, p.overlay = nbhd.overlay → libp2pPeerOf parse p.underlay = none

/-- With distinct numbers, the first entry of a number is its entry. -/
theorem target_of_mem {supply : List (PeerId × L)} (h : (supply.map Prod.fst).Nodup)
    {e : PeerId × L} (he : e ∈ supply) : target supply e.1 = some e.2 := by
  have hfind : supply.find? (fun e' => e'.1 = e.1) = some e := by
    obtain ⟨e', he'⟩ := Option.isSome_iff_exists.mp
      (List.find?_isSome (p := fun e' => e'.1 = e.1).mpr ⟨e, he, decide_eq_true rfl⟩)
    have hkey : e'.1 = e.1 := by simpa using List.find?_some he'
    rw [he', List.inj_on_of_nodup_map h (List.mem_of_find?_eq_some he') he hkey]
  rw [target, hfind]
  rfl

/-- With distinct numbers, an operation is run with the peer of its entry. -/
theorem libp2pRun_of_mem {supply : List (PeerId × L)} (h : (supply.map Prod.fst).Nodup)
    {C σ : Type} (runOp : σ → L → Op C → Option (Event C) × σ) (s : σ) {op : Op C}
    {e : PeerId × L} (he : e ∈ supply) (hop : op.peer = e.1) :
    libp2pRun runOp supply s op = runOp s e.2 op := by
  rw [libp2pRun, hop, target_of_mem h he]

/-- Where every handshake succeeds, the supply is a set of distinct other peers exactly if the push
already is one of few enough: nothing on the way merges duplicates, leaves out our own address or
keeps the numbers from overflowing. -/
theorem suppliesDistinct_iff (hs : ∀ r l addr, (handshake r l addr).1.isSome)
    (discovered : List DiscoveredPeer) (r : ρ) :
    SuppliesDistinct parse handshake nbhd discovered r ↔ DistinctPush parse nbhd discovered := by
  have hlen : (discovered.filterMap (dialled parse nbhd)).length
      = discovered.countP fun p => (dialled parse nbhd p).isSome := List.length_filterMap_eq_countP
  have htile := tile_activePeers parse handshake nbhd hs discovered r
  rw [SuppliesDistinct, connected_activePeers parse handshake nbhd hs]
  constructor
  · rintro ⟨supply, hsupply, h⟩
    split_ifs at hsupply with hfew
    obtain rfl := Except.ok.inj hsupply
    refine ⟨hlen ▸ hfew, ?_, fun p hp hown => ?_⟩
    · have hnodup := h.libp2p
      rw [map_snd_numbered, List.Nodup, List.pairwise_filterMap] at hnodup
      exact hnodup.imp fun hne l hl hl' => hne l hl l hl' rfl
    · -- our own overlay passes the filter, and would be active
      refine Option.eq_none_iff_forall_ne_some.mpr fun l hl => ?_
      have hnear : nbhd.isNeighbour p.overlay = true := hown ▸ isNeighbour_self nbhd
      obtain ⟨n, hn, rfl⟩ := selected_of_mem parse nbhd hp hnear hl
      refine h.others n.active ?_ hown
      rw [htile]
      exact List.mem_map_of_mem hn
  · intro h
    have hfew : (discovered.filterMap (dialled parse nbhd)).length ≤ 254 := hlen ▸ h.few
    have hnodup : (discovered.filterMap (dialled parse nbhd)).Nodup := by
      rw [List.Nodup, List.pairwise_filterMap]
      refine h.libp2p.imp ?_
      rintro p q hne l hl _ hl' rfl
      exact hne l hl hl'
    have hids := nodup_numbered hfew
    have hlibp2p : ((numbered (discovered.filterMap (dialled parse nbhd))).map Prod.snd).Nodup := by
      rwa [map_snd_numbered]
    refine ⟨_, if_pos hfew, ⟨?_, hids, hlibp2p, fun p hp hown => ?_, ?_, ?_⟩⟩
    · rw [map_snd_numbered, htile, List.map_map, ← map_libp2p_selectNeighbours]
      rfl
    · rw [htile] at hp
      obtain ⟨n, hn, rfl⟩ := List.mem_map.mp hp
      obtain ⟨hmem, -, hdial⟩ := mem_selectNeighbours parse nbhd hn
      rw [h.others n.peer hmem hown] at hdial
      cases hdial
    · exact fun C σ runOp s op e he hop => libp2pRun_of_mem hids runOp s he hop
    · exact fun e he e' he' hne heq =>
        hne (congrArg Prod.fst (List.inj_on_of_nodup_map hlibp2p he he' heq))

end Supply

/-! ## Pushes that do not -/

/-- An underlay that is the id of its peer, unless it is empty. -/
def plainUnderlay : Bytes → Option (Multiaddr Bytes)
  | [] => none
  | id => some [.p2p id]

/-- A handshake that succeeds. -/
def plainHandshake : Unit → Bytes → Multiaddr Bytes → Option (ByteArr 20) × Unit :=
  fun _ _ _ => (some ⟨List.replicate 20 0, rfl⟩, ())

/-- A node whose tile is everything. -/
def plainTile : Overlay.Neighbourhood := ⟨⟨List.replicate 32 0, rfl⟩, 0⟩

/-- A peer with the first byte of its overlay and its underlay. -/
def plainPeer (x : UInt8) (underlay : Bytes) : DiscoveredPeer :=
  ⟨⟨x :: List.replicate 31 0, rfl⟩, underlay, ⟨List.replicate 20 0, rfl⟩⟩

theorem suppliesDistinct_iff_plain :
    SuppliesDistinct plainUnderlay plainHandshake plainTile
      [plainPeer 1 [7], plainPeer 2 [], plainPeer 3 [8]] () :=
  (suppliesDistinct_iff plainUnderlay plainHandshake plainTile (fun _ _ _ => rfl) _ _).mpr
    ⟨by decide, by simp [dialled, plainPeer, plainUnderlay, libp2pPeerOf, Protocol.p2pId],
      by decide⟩

/-- Our own address among the pushed ones is numbered, a peer pushed twice is numbered twice, and
255 peers are more than there are numbers. -/
theorem not_suppliesDistinct :
    ¬ SuppliesDistinct plainUnderlay plainHandshake plainTile [plainPeer 0 [7]] ()
      ∧ ¬ SuppliesDistinct plainUnderlay plainHandshake plainTile
        [plainPeer 1 [7], plainPeer 1 [7]] ()
      ∧ ¬ SuppliesDistinct plainUnderlay plainHandshake plainTile
        ((List.range 255).map fun i => plainPeer 1 [UInt8.ofNat i]) () := by
  refine ⟨?_, ?_, ?_⟩
  · rintro ⟨supply, -, h⟩
    exact h.others ⟨plainTile.overlay, [7], true⟩ List.mem_cons_self rfl
  · rintro ⟨supply, -, h⟩
    have hnodup := h.numbered ▸ h.libp2p
    exact absurd hnodup (by decide)
  · -- the number after the last of the 255 is not one
    rintro ⟨supply, hsupply, -⟩
    rw [connected_activePeers _ _ _ (fun _ _ _ => rfl), if_neg (by decide +kernel)] at hsupply
    cases hsupply

end Melissi.Net
