import Melissi.Common.Polled
import Melissi.Net.Handshake

/-!
# Two honest drivers agree

Reference: `crates/net/src/handshake.rs`. An initiator and a responder are joined by two streams,
whose bytes arrive in order and in any fragments. What a side has not read yet is in its buffer or
still under way; the two together, and the steps, are all that matters, and they go through a few
stages.
-/

namespace Melissi.Net

open Melissi.Common Melissi.Protobuf

variable {P : Primitives}

/-! ## The parties -/

/-- A party to a handshake, with the identity it has built. -/
structure Party (P : Primitives) where
  secret : Bytes32
  underlay : Bytes
  networkId : ℕ
  nonce : Bytes32
  timestamp : ℕ
  chequebook : ByteArr 20
  fullNode : Bool
  observed : Bytes
  mine : BzzAddress
  built : BzzAddress.new P secret underlay networkId nonce timestamp chequebook = some mine
  networkId_lt : networkId < 2 ^ 64
  timestamp_lt : timestamp < 2 ^ 64
  observed_ne : observed ≠ []

namespace Party

variable (p i r : Party P)

def ack : Ack := ⟨p.mine, p.networkId, p.fullNode, ""⟩

/-- What it sends as an initiator first, and as a responder. -/
def syn : Syn := ⟨p.observed⟩

def synAck : SynAck := ⟨p.syn, p.ack⟩

/-- Its driver in some step. -/
def driver (role : Role) (step : Step) (peer : Option Address) (buf : Bytes) : Handshake :=
  ⟨role, p.mine, p.networkId, p.fullNode, p.observed, step, buf, peer⟩

theorem mine_timestamp : p.mine.timestamp = p.timestamp := by
  have h := p.built
  rw [BzzAddress.new, Option.bind_eq_bind, Option.bind_eq_some_iff] at h
  obtain ⟨eth, -, h⟩ := h
  rw [Option.bind_eq_bind, Option.bind_eq_some_iff] at h
  obtain ⟨sig, -, h⟩ := h
  rw [← Option.some.inj h]

/-- The messages of the exchange fit their frames. -/
structure Framed : Prop where
  syn : i.syn.encode.length ≤ maxFrame
  synAck : r.synAck.encode.length ≤ maxFrame
  ack : i.ack.encode.length ≤ maxFrame

theorem decode_syn (h : p.syn.encode.length ≤ maxFrame) :
    Syn.decode p.syn.encode = .ok (some p.syn) :=
  Syn.decode_encode (lt_of_le_of_lt h (by decide))

theorem decode_ack (h : p.ack.encode.length ≤ maxFrame) :
    Ack.decode p.ack.encode = .ok (some p.ack) :=
  Ack.decode_encode p.networkId_lt (p.mine_timestamp ▸ p.timestamp_lt)
    (lt_of_le_of_lt h (by decide))

theorem decode_synAck (h : p.synAck.encode.length ≤ maxFrame) :
    SynAck.decode p.synAck.encode = .ok (some p.synAck) :=
  SynAck.decode_encode p.observed_ne p.networkId_lt (p.mine_timestamp ▸ p.timestamp_lt)
    (lt_of_le_of_lt h (by decide))

end Party

/-! ## The link -/

/-- The two drivers, and the bytes under way to each. -/
structure Link where
  initiator : Handshake
  responder : Handshake
  toInitiator : Bytes
  toResponder : Bytes

/-- The bytes an output sends. -/
def HsOut.bytes : HsOut → Bytes
  | .send bytes => bytes
  | _ => []

namespace Link

/-- One side is polled with up to so many of the bytes under way to it. -/
def step (P : Primitives) (l : Link) (m : Role × ℕ) : Except String (Link × HsOut) :=
  match m.1 with
  | .initiator => (l.initiator.poll P (l.toInitiator.take m.2)).map fun r =>
      (⟨r.1, l.responder, l.toInitiator.drop m.2, l.toResponder ++ r.2.bytes⟩, r.2)
  | .responder => (l.responder.poll P (l.toResponder.take m.2)).map fun r =>
      (⟨l.initiator, r.1, l.toInitiator ++ r.2.bytes, l.toResponder.drop m.2⟩, r.2)

/-- Both drivers are new, and nothing is under way. -/
def start (i r : Party P) : Link where
  initiator := .new .initiator i.mine i.networkId i.fullNode i.observed
  responder := .new .responder r.mine r.networkId r.fullNode r.observed
  toInitiator := []
  toResponder := []

end Link

/-! ## Reading a frame in fragments -/

/-- A side that is to read one frame has read it once nothing of it is under way, and until then it
reads nothing. -/
theorem fragment {msg buf way : Bytes} (hmsg : msg.length ≤ maxFrame)
    (h : buf ++ way = frame msg) (n : ℕ) :
    (way.drop n = [] ∧ buf ++ way.take n = frame msg)
      ∨ deframe (buf ++ way.take n) = .ok none := by
  have hsplit : buf ++ way.take n ++ way.drop n = frame msg := by
    rw [List.append_assoc, List.take_append_drop, h]
  by_cases hrest : way.drop n = []
  · rw [hrest, List.append_nil] at hsplit
    exact .inl ⟨hrest, hsplit⟩
  · exact .inr (deframe_part hmsg hsplit hrest)

theorem deframe_whole {msg : Bytes} (h : msg.length ≤ maxFrame) :
    deframe (frame msg) = .ok (some (msg, (frame msg).length)) := by
  have := deframe_frame h []
  rwa [List.append_nil] at this

/-! ## What a poll of each step does -/

namespace Party

variable {i r : Party P} {peer : Option Address} {buf input : Bytes}

theorem poll_finish (p : Party P) (role : Role) (eth : ByteArr 20) :
    (p.driver role (.finish eth) peer buf).poll P input
      = .ok (p.driver role (.finish eth) peer (buf ++ input), .done eth) := by
  cases role <;> rfl

theorem poll_failed (p : Party P) (role : Role) :
    (p.driver role .failed peer buf).poll P input
      = .ok (p.driver role .failed peer (buf ++ input), .failed) := by
  cases role <;> rfl

/-- A side that waits for a message needs more bytes until it is whole. -/
theorem poll_need {p : Party P} {role : Role} {step : Step}
    (hs : role = .initiator ∧ step = .awaitSynAck
      ∨ role = .responder ∧ (step = .awaitSyn ∨ step = .awaitAck))
    (hd : deframe (buf ++ input) = .ok none) : (p.driver role step peer buf).poll P input
      = .ok (p.driver role step peer (buf ++ input), .need) := by
  rcases hs with ⟨rfl, rfl⟩ | ⟨rfl, rfl | rfl⟩ <;>
    simp only [Handshake.poll, Handshake.readAck, Handshake.driveResponder, driver, hd]

/-- The responder's start is only a step before it awaits. -/
theorem poll_responder_start : (r.driver .responder .start peer buf).poll P input
    = (r.driver .responder .awaitSyn peer buf).poll P input := rfl

/-- The responder answers a `Syn`. -/
theorem poll_syn (hf : Framed i r) (hd : buf ++ input = frame i.syn.encode) :
    (r.driver .responder .awaitSyn peer buf).poll P input
      = .ok (r.driver .responder .awaitAck peer [], .send (frame r.synAck.encode)) := by
  simp only [Handshake.poll, Handshake.driveResponder, driver, hd, deframe_whole hf.syn,
    i.decode_syn hf.syn, List.drop_length]
  rfl

/-- The check of an honest `Ack`: it passes under the same network id only. -/
theorem check_ack {eth : ByteArr 20} (p q : Party P) (hv : q.mine.verify P q.networkId = some eth)
    (role : Role) (step : Step) :
    (p.driver role step peer buf).check P q.ack = if q.networkId = p.networkId then
      some (p.driver role step (some q.mine.overlay) buf, eth) else none := by
  rw [Handshake.check]
  by_cases h : q.networkId = p.networkId
  · have hv' : q.mine.verify P p.networkId = some eth := h ▸ hv
    simp only [driver, ack, h, if_true, hv', Option.map_some]
  · simp only [driver, ack, h, if_false]

/-- The initiator checks the `SynAck`, and sends its own `Ack` only if it passes. -/
theorem poll_synAck {eth : ByteArr 20} (hv : r.mine.verify P r.networkId = some eth)
    (hf : Framed i r) (hd : buf ++ input = frame r.synAck.encode) :
    (i.driver .initiator .awaitSynAck peer buf).poll P input
      = .ok (if r.networkId = i.networkId then
          (i.driver .initiator (.finish eth) (some r.mine.overlay) [], .send (frame i.ack.encode))
        else (i.driver .initiator .failed peer [], .failed)) := by
  have hcheck := @check_ack P peer [] eth i r hv .initiator .awaitSynAck
  simp only [driver] at hcheck
  simp only [Handshake.poll, Handshake.readAck, driver, hd, deframe_whole hf.synAck,
    r.decode_synAck hf.synAck, List.drop_length, Except.map, Option.map_some, Option.bind_some,
    show r.synAck.ack = r.ack from rfl, hcheck]
  by_cases h : r.networkId = i.networkId
  · simp only [h, if_true]
    rfl
  · simp only [h, if_false]

/-- The responder checks the `Ack`. -/
theorem poll_ack {eth : ByteArr 20} (hv : i.mine.verify P i.networkId = some eth)
    (hf : Framed i r) (hsame : i.networkId = r.networkId) (hd : buf ++ input = frame i.ack.encode) :
    (r.driver .responder .awaitAck peer buf).poll P input
      = .ok (r.driver .responder (.finish eth) (some i.mine.overlay) [], .done eth) := by
  have hcheck := @check_ack P peer [] eth r i hv .responder .awaitAck
  simp only [driver] at hcheck
  simp only [Handshake.poll, Handshake.readAck, driver, hd, deframe_whole hf.ack,
    i.decode_ack hf.ack, List.drop_length, Except.map, Option.bind_some, hcheck, if_pos hsame]

end Party

/-! ## The stages of a link -/

/-- How far the exchange is. -/
inductive Stage where
  | opening
  /-- The `Syn` is sent. -/
  | greeted
  /-- The `SynAck` is sent. -/
  | answered
  /-- The initiator is done, its `Ack` is sent. -/
  | sealed
  /-- The initiator has failed. -/
  | refused
  | closed

namespace Stage

variable (i r : Party P) (eth : ByteArr 20)

/-- The step of the initiator, where the responder has the address `eth`. -/
def initiatorStep : Stage → Step
  | opening => .start
  | greeted | answered => .awaitSynAck
  | sealed | closed => .finish eth
  | refused => .failed

/-- The steps the responder may be in, where the initiator has the address `eth`. -/
def responderStep : Stage → Step → Prop
  | opening | greeted => fun step => step = .start ∨ step = .awaitSyn
  | answered | sealed | refused => (· = .awaitAck)
  | closed => (· = .finish eth)

/-- What the initiator has not read yet. -/
def toInitiator : Stage → Bytes
  | answered => frame r.synAck.encode
  | _ => []

/-- What the responder has not read yet. -/
def toResponder : Stage → Bytes
  | greeted => frame i.syn.encode
  | sealed => frame i.ack.encode
  | _ => []

/-- The stages a link gets to, where the network ids are the same and where they are not. -/
def Reached : Stage → Prop
  | sealed | closed => r.networkId = i.networkId
  | refused => r.networkId ≠ i.networkId
  | _ => True

end Stage

/-- A link is in a stage: the drivers are in its steps, and what is not read is in a buffer or under
way. -/
structure InStage (i r : Party P) (ethI ethR : ByteArr 20) (stage : Stage) (l : Link) : Prop where
  reached : stage.Reached i r
  initiator : ∃ peer buf, l.initiator = i.driver .initiator (stage.initiatorStep ethR) peer buf
    ∧ ((stage = .sealed ∨ stage = .closed) → peer = some r.mine.overlay)
    ∧ buf ++ l.toInitiator = stage.toInitiator r
  responder : ∃ step peer buf, stage.responderStep ethI step
    ∧ l.responder = r.driver .responder step peer buf
    ∧ (stage = .closed → peer = some i.mine.overlay)
    ∧ buf ++ l.toResponder = stage.toResponder i

/-- What an output says: no failure under the same network id, and no verdict on different ones. -/
def Fair (i r : Party P) (out : HsOut) : Prop :=
  (r.networkId = i.networkId → out ≠ .failed)
    ∧ (r.networkId ≠ i.networkId → ∀ eth, out ≠ .done eth)

/-- A link goes on: the poll returns, and leaves it in a stage. -/
def GoesOn (i r : Party P) (ethI ethR : ByteArr 20) (x : Except String (Link × HsOut)) : Prop :=
  ∃ stage l out, x = .ok (l, out) ∧ InStage i r ethI ethR stage l ∧ Fair i r out

section Step

variable {i r : Party P} {ethI ethR : ByteArr 20} {stage : Stage} {l : Link}

/-- What is read and what is still under way are what there was. -/
theorem append_under_way (buf way : Bytes) (n : ℕ) : buf ++ way.take n ++ way.drop n = buf ++ way := by
  rw [List.append_assoc, List.take_append_drop]

/-- The initiator is polled. -/
theorem InStage.step_initiator (hR : r.mine.verify P r.networkId = some ethR) (hf : i.Framed r)
    (h : InStage i r ethI ethR stage l) (n : ℕ) :
    GoesOn i r ethI ethR (l.step P (.initiator, n)) := by
  obtain ⟨hreached, ⟨peer, buf, hl, hpeer, hway⟩, step, peerR, bufR, hstep, hlR, hpeerR, hwayR⟩ := h
  obtain ⟨initiator, responder, toInitiator, toResponder⟩ := l
  obtain rfl : initiator = _ := hl
  have hmoved := append_under_way buf toInitiator n
  have hquiet : bufR ++ (toResponder ++ []) = bufR ++ toResponder := by rw [List.append_nil]
  rw [Link.step]
  cases stage with
  | opening =>
    refine ⟨.greeted, _, _, rfl, ⟨trivial, ⟨peer, _, rfl, by simp, hmoved.trans hway⟩,
      step, peerR, bufR, hstep, hlR, by simp, ?_⟩, by simp, by simp⟩
    have hnone : bufR ++ toResponder = [] := hwayR
    simp only [HsOut.bytes, ← List.append_assoc, hnone]
    rfl
  | greeted =>
    have hnone : deframe (buf ++ toInitiator.take n) = .ok none := by
      rw [(List.append_eq_nil_iff.mp (hmoved.trans hway)).1]
      rfl
    simp only [Stage.initiatorStep, Party.poll_need (.inl ⟨rfl, rfl⟩) hnone]
    exact ⟨.greeted, _, _, rfl, ⟨trivial, ⟨peer, _, rfl, by simp, hmoved.trans hway⟩,
      step, peerR, bufR, hstep, hlR, by simp, hquiet.trans hwayR⟩, by simp, by simp⟩
  | answered =>
    rcases fragment hf.synAck hway n with ⟨hall, hwhole⟩ | hnone
    · simp only [Stage.initiatorStep, Party.poll_synAck hR hf hwhole]
      by_cases hsame : r.networkId = i.networkId
      · rw [if_pos hsame]
        refine ⟨.sealed, _, _, rfl, ⟨hsame, ⟨_, [], rfl, fun _ => rfl, hall⟩,
          step, peerR, bufR, hstep, hlR, by simp, ?_⟩, by simp, by simp⟩
        have hnone : bufR ++ toResponder = [] := hwayR
        simp only [HsOut.bytes, ← List.append_assoc, hnone]
        rfl
      · rw [if_neg hsame]
        exact ⟨.refused, _, _, rfl, ⟨hsame, ⟨_, [], rfl, by simp, hall⟩,
          step, peerR, bufR, hstep, hlR, by simp, hquiet.trans hwayR⟩,
          fun h => absurd h hsame, by simp⟩
    · simp only [Stage.initiatorStep, Party.poll_need (.inl ⟨rfl, rfl⟩) hnone]
      exact ⟨.answered, _, _, rfl, ⟨trivial, ⟨peer, _, rfl, by simp, hmoved.trans hway⟩,
        step, peerR, bufR, hstep, hlR, by simp, hquiet.trans hwayR⟩, by simp,
        by simp⟩
  | sealed =>
    simp only [Stage.initiatorStep, Party.poll_finish]
    exact ⟨.sealed, _, _, rfl, ⟨hreached, ⟨peer, _, rfl, hpeer, hmoved.trans hway⟩,
      step, peerR, bufR, hstep, hlR, by simp, hquiet.trans hwayR⟩, by simp,
      fun hne => absurd hreached hne⟩
  | refused =>
    simp only [Stage.initiatorStep, Party.poll_failed]
    exact ⟨.refused, _, _, rfl, ⟨hreached, ⟨peer, _, rfl, by simp, hmoved.trans hway⟩,
      step, peerR, bufR, hstep, hlR, by simp, hquiet.trans hwayR⟩,
      fun h => absurd h hreached, by simp⟩
  | closed =>
    simp only [Stage.initiatorStep, Party.poll_finish]
    exact ⟨.closed, _, _, rfl, ⟨hreached, ⟨peer, _, rfl, hpeer, hmoved.trans hway⟩,
      step, peerR, bufR, hstep, hlR, hpeerR, hquiet.trans hwayR⟩, by simp,
      fun hne => absurd hreached hne⟩

/-- The responder is polled. -/
theorem InStage.step_responder (hI : i.mine.verify P i.networkId = some ethI) (hf : i.Framed r)
    (h : InStage i r ethI ethR stage l) (n : ℕ) :
    GoesOn i r ethI ethR (l.step P (.responder, n)) := by
  obtain ⟨hreached, ⟨peer, buf, hl, hpeer, hway⟩, step, peerR, bufR, hstep, hlR, hpeerR, hwayR⟩ := h
  obtain ⟨initiator, responder, toInitiator, toResponder⟩ := l
  obtain rfl : responder = _ := hlR
  have hmoved := append_under_way bufR toResponder n
  have hquiet : buf ++ (toInitiator ++ []) = buf ++ toInitiator := by rw [List.append_nil]
  rw [Link.step]
  cases stage with
  | opening =>
    have hnone : deframe (bufR ++ toResponder.take n) = .ok none := by
      rw [(List.append_eq_nil_iff.mp (hmoved.trans hwayR)).1]
      rfl
    have hpoll : (r.driver .responder step peerR bufR).poll P (toResponder.take n)
        = .ok (r.driver .responder .awaitSyn peerR (bufR ++ toResponder.take n), .need) := by
      rcases hstep with rfl | rfl
      · rw [Party.poll_responder_start, Party.poll_need (.inr ⟨rfl, .inl rfl⟩) hnone]
      · rw [Party.poll_need (.inr ⟨rfl, .inl rfl⟩) hnone]
    simp only [hpoll]
    exact ⟨.opening, _, _, rfl, ⟨trivial, ⟨peer, buf, hl, by simp, hquiet.trans hway⟩,
      .awaitSyn, peerR, _, .inr rfl, rfl, by simp, hmoved.trans hwayR⟩, by simp, by simp⟩
  | greeted =>
    have hpoll : (r.driver .responder step peerR bufR).poll P (toResponder.take n)
        = (r.driver .responder .awaitSyn peerR bufR).poll P (toResponder.take n) := by
      rcases hstep with rfl | rfl
      · rw [Party.poll_responder_start]
      · rfl
    rcases fragment hf.syn hwayR n with ⟨hall, hwhole⟩ | hnone
    · simp only [hpoll, Party.poll_syn hf hwhole]
      refine ⟨.answered, _, _, rfl, ⟨trivial, ⟨peer, buf, hl, by simp, ?_⟩,
        .awaitAck, peerR, [], rfl, rfl, by simp, hall⟩, by simp, by simp⟩
      have hnone : buf ++ toInitiator = [] := hway
      simp only [HsOut.bytes, ← List.append_assoc, hnone]
      rfl
    · simp only [hpoll, Party.poll_need (.inr ⟨rfl, .inl rfl⟩) hnone]
      exact ⟨.greeted, _, _, rfl, ⟨trivial, ⟨peer, buf, hl, by simp, hquiet.trans hway⟩,
        .awaitSyn, peerR, _, .inr rfl, rfl, by simp, hmoved.trans hwayR⟩, by simp, by simp⟩
  | answered =>
    obtain rfl := hstep
    have hnone : deframe (bufR ++ toResponder.take n) = .ok none := by
      rw [(List.append_eq_nil_iff.mp (hmoved.trans hwayR)).1]
      rfl
    simp only [Party.poll_need (.inr ⟨rfl, .inr rfl⟩) hnone]
    exact ⟨.answered, _, _, rfl, ⟨trivial, ⟨peer, buf, hl, by simp, hquiet.trans hway⟩,
      .awaitAck, peerR, _, rfl, rfl, by simp, hmoved.trans hwayR⟩, by simp, by simp⟩
  | sealed =>
    obtain rfl := hstep
    rcases fragment hf.ack hwayR n with ⟨hall, hwhole⟩ | hnone
    · simp only [Party.poll_ack hI hf hreached.symm hwhole]
      exact ⟨.closed, _, _, rfl, ⟨hreached, ⟨peer, buf, hl, fun _ => hpeer (.inl rfl),
        hquiet.trans hway⟩, .finish ethI, _, [], rfl, rfl, fun _ => rfl, hall⟩, by simp,
        fun hne => absurd hreached hne⟩
    · simp only [Party.poll_need (.inr ⟨rfl, .inr rfl⟩) hnone]
      exact ⟨.sealed, _, _, rfl, ⟨hreached, ⟨peer, buf, hl, hpeer, hquiet.trans hway⟩,
        .awaitAck, peerR, _, rfl, rfl, by simp, hmoved.trans hwayR⟩, by simp, by simp⟩
  | refused =>
    obtain rfl := hstep
    have hnone : deframe (bufR ++ toResponder.take n) = .ok none := by
      rw [(List.append_eq_nil_iff.mp (hmoved.trans hwayR)).1]
      rfl
    simp only [Party.poll_need (.inr ⟨rfl, .inr rfl⟩) hnone]
    exact ⟨.refused, _, _, rfl, ⟨hreached, ⟨peer, buf, hl, by simp, hquiet.trans hway⟩,
      .awaitAck, peerR, _, rfl, rfl, by simp, hmoved.trans hwayR⟩, by simp, by simp⟩
  | closed =>
    obtain rfl := hstep
    simp only [Party.poll_finish]
    exact ⟨.closed, _, _, rfl, ⟨hreached, ⟨peer, buf, hl, hpeer, hquiet.trans hway⟩,
      .finish ethI, peerR, _, rfl, rfl, hpeerR, hmoved.trans hwayR⟩, by simp,
      fun hne => absurd hreached hne⟩

theorem InStage.step (hI : i.mine.verify P i.networkId = some ethI)
    (hR : r.mine.verify P r.networkId = some ethR) (hf : i.Framed r)
    (h : InStage i r ethI ethR stage l) (m : Role × ℕ) : GoesOn i r ethI ethR (l.step P m) := by
  obtain ⟨_ | _, n⟩ := m
  · exact h.step_initiator hR hf n
  · exact h.step_responder hI hf n

/-- Where nothing is under way and neither side has anything to send, both are done. -/
theorem InStage.rest (hI : i.mine.verify P i.networkId = some ethI)
    (hR : r.mine.verify P r.networkId = some ethR) (hf : i.Framed r)
    (h : InStage i r ethI ethR stage l) (hsame : r.networkId = i.networkId)
    (hnoneI : l.toInitiator = []) (hnoneR : l.toResponder = []) {h₁ h₂ : Handshake}
    {out₁ out₂ : HsOut} (hp₁ : l.initiator.poll P [] = .ok (h₁, out₁))
    (hp₂ : l.responder.poll P [] = .ok (h₂, out₂)) (hs₁ : ∀ bytes, out₁ ≠ .send bytes)
    (hs₂ : ∀ bytes, out₂ ≠ .send bytes) :
    out₁ = .done ethR ∧ h₁.peerOverlay = some r.mine.overlay
      ∧ out₂ = .done ethI ∧ h₂.peerOverlay = some i.mine.overlay := by
  obtain ⟨hreached, ⟨peer, buf, hl, hpeer, hway⟩, step, peerR, bufR, hstep, hlR, hpeerR, hwayR⟩ := h
  rw [hnoneI] at hway
  rw [hnoneR] at hwayR
  rw [hl] at hp₁
  rw [hlR] at hp₂
  cases stage with
  | opening =>
    obtain ⟨-, rfl⟩ := Prod.mk.inj (Except.ok.inj hp₁)
    exact absurd rfl (hs₁ _)
  | greeted =>
    have hpoll := @Party.poll_syn P i r peerR bufR [] hf hwayR
    rcases hstep with rfl | rfl
    all_goals
      obtain ⟨-, rfl⟩ := Prod.mk.inj (Except.ok.inj (hpoll.symm.trans hp₂))
      exact absurd rfl (hs₂ _)
  | answered =>
    have hpoll := @Party.poll_synAck P i r peer buf [] ethR hR hf hway
    rw [if_pos hsame] at hpoll
    obtain ⟨-, rfl⟩ := Prod.mk.inj (Except.ok.inj (hpoll.symm.trans hp₁))
    exact absurd rfl (hs₁ _)
  | sealed =>
    obtain rfl := hstep
    have hpoll := @Party.poll_ack P i r peerR bufR [] ethI hI hf hsame.symm hwayR
    have hdone := @Party.poll_finish P peer buf [] i .initiator ethR
    obtain ⟨rfl, rfl⟩ := Prod.mk.inj (Except.ok.inj (hdone.symm.trans hp₁))
    obtain ⟨rfl, rfl⟩ := Prod.mk.inj (Except.ok.inj (hpoll.symm.trans hp₂))
    exact ⟨rfl, hpeer (.inl rfl), rfl, rfl⟩
  | refused => exact absurd hsame hreached
  | closed =>
    obtain rfl := hstep
    have hdone := @Party.poll_finish P peer buf [] i .initiator ethR
    have hdone' := @Party.poll_finish P peerR bufR [] r .responder ethI
    obtain ⟨rfl, rfl⟩ := Prod.mk.inj (Except.ok.inj (hdone.symm.trans hp₁))
    obtain ⟨rfl, rfl⟩ := Prod.mk.inj (Except.ok.inj (hdone'.symm.trans hp₂))
    exact ⟨rfl, hpeer (.inr rfl), rfl, hpeerR rfl⟩

/-- Every run of polls goes on. -/
theorem InStage.run (hI : i.mine.verify P i.networkId = some ethI)
    (hR : r.mine.verify P r.networkId = some ethR) (hf : i.Framed r)
    (h : InStage i r ethI ethR stage l) (moves : List (Role × ℕ)) :
    ∃ stage' l' outs, pollAll (Link.step P) l moves = .ok (l', outs)
      ∧ InStage i r ethI ethR stage' l' ∧ ∀ out ∈ outs, Fair i r out := by
  induction moves generalizing stage l with
  | nil => exact ⟨stage, l, [], rfl, h, by simp⟩
  | cons m moves ih =>
    obtain ⟨stage', l', out, hstep, hin, hfair⟩ := h.step hI hR hf m
    obtain ⟨stage'', l'', outs, hrun, hin', hfairs⟩ := ih hin
    refine ⟨stage'', l'', out :: outs, ?_, hin', by simpa using ⟨hfair, hfairs⟩⟩
    rw [pollAll, hstep]
    simp only [Except.bind, hrun, Except.map]

end Step

/-! ## Every run -/

/-- Polls of both sides in any order, with any fragments, never abort. Under the same network id
neither side ever fails, and once nothing is under way and neither side has anything to send, each
is done with the address of the other's key and has the other's overlay. On different network ids
neither is ever done. -/
theorem drivers_agree (hP : P.RecoverInvertsSign) (i r : Party P) (hf : i.Framed r)
    (moves : List (Role × ℕ)) : ∃ l outs, pollAll (Link.step P) (Link.start i r) moves = .ok (l, outs)
      ∧ (r.networkId = i.networkId → .failed ∉ outs
        ∧ (l.toInitiator = [] → l.toResponder = [] → ∀ h₁ out₁ h₂ out₂,
          l.initiator.poll P [] = .ok (h₁, out₁) → l.responder.poll P [] = .ok (h₂, out₂) →
          (∀ bytes, out₁ ≠ .send bytes) → (∀ bytes, out₂ ≠ .send bytes) →
          ∃ ethI ethR, P.publicEthAddress i.secret = some ethI
            ∧ P.publicEthAddress r.secret = some ethR
            ∧ out₁ = .done ethR ∧ h₁.peerOverlay = some r.mine.overlay
            ∧ out₂ = .done ethI ∧ h₂.peerOverlay = some i.mine.overlay))
      ∧ (r.networkId ≠ i.networkId → ∀ eth, .done eth ∉ outs) := by
  obtain ⟨ethI, hkeyI, hI⟩ := BzzAddress.verify_new hP i.built
  obtain ⟨ethR, hkeyR, hR⟩ := BzzAddress.verify_new hP r.built
  have hstart : InStage i r ethI ethR .opening (Link.start i r) :=
    ⟨trivial, ⟨none, [], rfl, by simp, rfl⟩, .start, none, [], .inl rfl, rfl, by simp, rfl⟩
  obtain ⟨stage, l, outs, hrun, hin, hfair⟩ := hstart.run hI hR hf moves
  refine ⟨l, outs, hrun, fun hsame => ⟨fun hm => (hfair _ hm).1 hsame rfl, ?_⟩,
    fun hne eth hm => (hfair _ hm).2 hne eth rfl⟩
  intro hnoneI hnoneR h₁ out₁ h₂ out₂ hp₁ hp₂ hs₁ hs₂
  exact ⟨ethI, ethR, hkeyI, hkeyR, hin.rest hI hR hf hsame hnoneI hnoneR hp₁ hp₂ hs₁ hs₂⟩

/-- A party to evaluate on. -/
def Party.plain (seed : UInt8) (networkId : ℕ) (h : networkId < 2 ^ 64) : Party .plain where
  secret := ⟨List.replicate 32 seed, List.length_replicate⟩
  underlay := [seed]
  networkId := networkId
  nonce := zeroArr 32
  timestamp := 0
  chequebook := zeroArr 20
  fullNode := true
  observed := [seed]
  mine := .plain seed networkId
  built := rfl
  networkId_lt := h
  timestamp_lt := by decide
  observed_ne := List.cons_ne_nil _ _

/-- The responder is polled first, and every message comes in two parts. -/
theorem drivers_agree_split : ∃ l outs,
    pollAll (Link.step .plain) (Link.start (.plain 5 1 (by decide)) (.plain 7 1 (by decide)))
      [(.responder, 0), (.initiator, 0), (.responder, 2), (.responder, 9), (.initiator, 1),
        (.initiator, 999), (.responder, 100), (.responder, 999), (.initiator, 0)] = .ok (l, outs)
      ∧ .failed ∉ outs := by
  obtain ⟨l, outs, hrun, hsame, -⟩ := drivers_agree Primitives.plain_recoverInvertsSign
    (.plain 5 1 (by decide)) (.plain 7 1 (by decide))
    ⟨by decide +kernel, by decide +kernel, by decide +kernel⟩
    [(.responder, 0), (.initiator, 0), (.responder, 2), (.responder, 9), (.initiator, 1),
      (.initiator, 999), (.responder, 100), (.responder, 999), (.initiator, 0)]
  exact ⟨l, outs, hrun, (hsame rfl).1⟩

/-- In that run both sides are done at the end. -/
example : (pollAll (Link.step .plain) (Link.start (.plain 5 1 (by decide)) (.plain 7 1 (by decide)))
    [(.responder, 0), (.initiator, 0), (.responder, 2), (.responder, 9), (.initiator, 1),
      (.initiator, 999), (.responder, 100), (.responder, 999), (.initiator, 0)]).toOption.map
      (fun r => r.2.drop 7)
    = some [.done ⟨List.replicate 20 5, rfl⟩, .done ⟨List.replicate 20 7, rfl⟩] := by
  decide +kernel

end Melissi.Net
