import Melissi.Common.Polled
import Melissi.Net.Handshake

/-!
# The handshake authenticates the peer

Reference: `crates/net/src/handshake.rs`. Whatever a peer sends and however it is cut up, a driver
is done only with an address that a message of the stream proves, and the verdict it returns stands.
-/

namespace Melissi.Net

open Melissi.Common Melissi.Protobuf

variable {P : Primitives}

/-- The `Ack` in a message, as the role reads it. -/
def Carries (role : Role) (msg : Bytes) (ack : Ack) : Prop :=
  match role with
  | .initiator => ∃ syn, SynAck.decode msg = .ok (some ⟨syn, ack⟩)
  | .responder => Ack.decode msg = .ok (some ack)

/-- One of the messages has an `Ack` of our network whose identity proves the address and the
overlay. -/
def Proves (P : Primitives) (role : Role) (networkId : ℕ) (msgs : List Bytes) (eth : ByteArr 20)
    (overlay : Address) : Prop :=
  ∃ msg ∈ msgs, ∃ ack, Carries role msg ack ∧ ack.networkId = networkId
    ∧ ack.address.recovered P networkId = some eth
    ∧ P.overlayAddress eth networkId ack.address.nonce = ack.address.overlay
    ∧ ack.address.overlay = overlay

/-- A verdict: the peer is verified, or the handshake has failed. -/
def HsOut.Final : HsOut → Prop
  | .done _ => True
  | .failed => True
  | _ => False

namespace Handshake

/-- The steps of a role. -/
def Fits : Role → Step → Prop
  | .initiator, .awaitSyn | .initiator, .awaitAck | .responder, .awaitSynAck => False
  | _, _ => True

/-- What a driver has read off a stream, and what it holds of that. -/
structure Held (P : Primitives) (role : Role) (networkId : ℕ) (stream : Bytes) (msgs : List Bytes)
    (h : Handshake) : Prop where
  role_eq : h.role = role
  network_eq : h.networkId = networkId
  fits : Fits role h.step
  read : Deframes stream msgs h.buf
  proved : ∀ eth, h.step = .finish eth →
    ∃ overlay, h.peerOverlay = some overlay ∧ Proves P role networkId msgs eth overlay

/-- What an output says of the step it leaves the driver in: a verdict is kept there, and an
initiator past its start sends only once the peer is verified. -/
def Says (role : Role) (before after : Step) (out : HsOut) : Prop :=
  match out with
  | .done eth => after = .finish eth
  | .failed => after = .failed
  | .send _ => role = .initiator → before ≠ .start → ∃ eth, after = .finish eth
  | .need => True

/-- A poll reads some more messages, and leaves the start behind. -/
def Goes (P : Primitives) (role : Role) (networkId : ℕ) (stream : Bytes) (msgs : List Bytes)
    (before : Step) (r : Handshake × HsOut) : Prop :=
  ∃ more, Held P role networkId stream (msgs ++ more) r.1 ∧ Says role before r.1.step r.2
    ∧ r.1.step ≠ .start

theorem goes_driveResponder {networkId : ℕ} {stream : Bytes} {msgs : List Bytes} {h : Handshake}
    {r : Handshake × HsOut} (hh : Held P .responder networkId stream msgs h)
    (hs : h.step ≠ .start) (hr : h.driveResponder = .ok r) (before : Step) :
    Goes P .responder networkId stream msgs before r := by
  rw [driveResponder] at hr
  cases hd : deframe h.buf with
  | error e => simp [hd] at hr
  | ok m =>
    cases m with
    | none =>
      simp only [hd] at hr
      obtain rfl := Except.ok.inj hr
      exact ⟨[], by rwa [List.append_nil], trivial, hs⟩
    | some m =>
      obtain ⟨msg, n⟩ := m
      simp only [hd] at hr
      have hread := hh.read.snoc hd
      cases hdec : Syn.decode msg with
      | error e => simp [hdec, Except.map] at hr
      | ok syn =>
        cases syn with
        | none =>
          simp only [hdec, Except.map] at hr
          obtain rfl := Except.ok.inj hr
          exact ⟨[msg], ⟨hh.role_eq, hh.network_eq, trivial, hread, by simp⟩, rfl, by simp⟩
        | some syn =>
          simp only [hdec, Except.map] at hr
          obtain rfl := Except.ok.inj hr
          exact ⟨[msg], ⟨hh.role_eq, hh.network_eq, trivial, hread, by simp⟩, nofun, by simp⟩

/-- What the check of an `Ack` establishes. -/
theorem check_eq_some {h h' : Handshake} {ack : Ack} {eth : ByteArr 20}
    (hc : h.check P ack = some (h', eth)) :
    ack.networkId = h.networkId ∧ ack.address.verify P h.networkId = some eth
      ∧ h' = { h with peerOverlay := some ack.address.overlay } := by
  rw [check] at hc
  split at hc
  · next heq =>
    rw [Option.map_eq_some_iff] at hc
    obtain ⟨eth', hv, he⟩ := hc
    obtain ⟨rfl, rfl⟩ := Prod.mk.inj he
    exact ⟨heq, hv, rfl⟩
  · cases hc

theorem goes_readAck {role : Role} {networkId : ℕ} {stream : Bytes} {msgs : List Bytes}
    {h : Handshake} {r : Handshake × HsOut} {decode : Bytes → Except String (Option Ack)}
    {accept : Handshake → ByteArr 20 → Handshake × HsOut} {before : Step}
    (hh : Held P role networkId stream msgs h) (hs : h.step ≠ .start)
    (hdecode : ∀ msg ack, decode msg = .ok (some ack) → Carries role msg ack)
    (haccept : ∀ h' eth, (accept h' eth).1 = { h' with step := .finish eth }
      ∧ Says role before (.finish eth) (accept h' eth).2)
    (hr : readAck P decode h accept = .ok r) : Goes P role networkId stream msgs before r := by
  rw [readAck] at hr
  cases hd : deframe h.buf with
  | error e => simp [hd] at hr
  | ok m =>
    cases m with
    | none =>
      simp only [hd] at hr
      obtain rfl := Except.ok.inj hr
      exact ⟨[], by rwa [List.append_nil], trivial, hs⟩
    | some m =>
      obtain ⟨msg, n⟩ := m
      simp only [hd] at hr
      have hread := hh.read.snoc hd
      cases hdec : decode msg with
      | error e => simp [hdec, Except.map] at hr
      | ok ack =>
        simp only [hdec, Except.map] at hr
        cases hcheck : ack.bind (check P { h with buf := h.buf.drop n }) with
        | none =>
          simp only [hcheck] at hr
          obtain rfl := Except.ok.inj hr
          refine ⟨[msg], ⟨hh.role_eq, hh.network_eq, ?_, hread, by simp⟩, rfl, by simp⟩
          cases role <;> trivial
        | some v =>
          obtain ⟨h', eth⟩ := v
          simp only [hcheck] at hr
          obtain rfl := Except.ok.inj hr
          rw [Option.bind_eq_some_iff] at hcheck
          obtain ⟨ack, rfl, hcheck⟩ := hcheck
          obtain ⟨hnet, hverify, rfl⟩ := check_eq_some hcheck
          obtain ⟨hrec, hov⟩ := BzzAddress.verify_eq_some.mp hverify
          simp only [hh.network_eq] at hnet hrec hov
          rw [Goes, (haccept _ eth).1]
          refine ⟨[msg], ?_, (haccept _ eth).2, by simp⟩
          refine ⟨hh.role_eq, hh.network_eq, by cases role <;> trivial, hread, fun eth' he => ?_⟩
          obtain rfl : eth = eth' := by simpa using he
          exact ⟨_, rfl, msg, by simp, ack, hdecode msg ack hdec, hnet, hrec, hov, rfl⟩

/-- One poll: what was proved stays so, and so does a verdict. -/
theorem goes_poll {role : Role} {networkId : ℕ} {stream : Bytes} {msgs : List Bytes}
    {h : Handshake} {r : Handshake × HsOut} (hh : Held P role networkId stream msgs h)
    {input : Bytes} (hr : h.poll P input = .ok r) :
    Goes P role networkId (stream ++ input) msgs h.step r := by
  have hheld : Held P role networkId (stream ++ input) msgs { h with buf := h.buf ++ input } :=
    ⟨hh.role_eq, hh.network_eq, hh.fits, hh.read.append input, hh.proved⟩
  obtain ⟨hrole, mine, networkId', fullNode, observed, step, buf, peerOverlay⟩ := h
  obtain rfl : hrole = role := hh.role_eq
  rw [poll] at hr
  cases step with
  | start =>
    cases hrole with
    | initiator =>
      obtain rfl := Except.ok.inj hr
      exact ⟨[], by
        rw [List.append_nil]
        exact ⟨rfl, hheld.network_eq, trivial, hheld.read, by simp⟩, fun _ hs => absurd rfl hs, by simp⟩
    | responder =>
      have hsyn : Held P .responder networkId (stream ++ input) msgs
          ⟨.responder, mine, networkId', fullNode, observed, .awaitSyn, buf ++ input, peerOverlay⟩ :=
        ⟨rfl, hheld.network_eq, trivial, hheld.read, by simp⟩
      exact goes_driveResponder hsyn (by simp) hr _
  | awaitSynAck =>
    cases hrole with
    | initiator =>
      refine goes_readAck hheld (by simp) (fun msg ack hdec => ?_) (fun h' eth => ⟨rfl, ?_⟩) hr
      · cases hsa : SynAck.decode msg with
        | error e => simp [hsa, Except.map] at hdec
        | ok m =>
          simp only [hsa, Except.map, Except.ok.injEq, Option.map_eq_some_iff] at hdec
          obtain ⟨⟨syn, ack'⟩, rfl, rfl⟩ := hdec
          exact ⟨syn, hsa⟩
      · exact fun _ _ => ⟨eth, rfl⟩
    | responder => exact hh.fits.elim
  | awaitSyn =>
    cases hrole with
    | initiator => exact hh.fits.elim
    | responder => exact goes_driveResponder hheld (by simp) hr _
  | awaitAck =>
    cases hrole with
    | initiator => exact hh.fits.elim
    | responder =>
      refine goes_readAck hheld (by simp) (fun _ _ h => h) (fun h' eth => ⟨rfl, ?_⟩) hr
      rfl
  | finish eth =>
    have hsame : r = (⟨hrole, mine, networkId', fullNode, observed, .finish eth, buf ++ input,
        peerOverlay⟩, .done eth) := by
      cases hrole <;> exact (Except.ok.inj hr).symm
    rw [hsame]
    exact ⟨[], by rwa [List.append_nil], rfl, by simp⟩
  | failed =>
    have hsame : r = (⟨hrole, mine, networkId', fullNode, observed, .failed, buf ++ input,
        peerOverlay⟩, .failed) := by
      cases hrole <;> exact (Except.ok.inj hr).symm
    rw [hsame]
    exact ⟨[], by rwa [List.append_nil], rfl, by simp⟩

/-! ## Runs -/

/-- The verdict a step stands for. -/
def Step.Stands (step : Step) (verdict : HsOut) : Prop :=
  (∃ eth, step = .finish eth ∧ verdict = .done eth) ∨ step = .failed ∧ verdict = .failed

/-- A verdict is returned for ever. -/
theorem pollAll_stands {h h' : Handshake} {verdict : HsOut} {inputs : List Bytes}
    {outs : List HsOut} (hv : Step.Stands h.step verdict)
    (hr : pollAll (poll P) h inputs = .ok (h', outs)) :
    h'.step = h.step ∧ ∀ out ∈ outs, out = verdict := by
  induction inputs generalizing h outs with
  | nil =>
    obtain ⟨rfl, rfl⟩ := Prod.mk.inj (Except.ok.inj hr)
    simp
  | cons input inputs ih =>
    obtain ⟨h'', out, outs', hp, hrest, rfl⟩ := pollAll_cons hr
    obtain ⟨role, mine, networkId, fullNode, observed, step, buf, peerOverlay⟩ := h
    have hsame : h''.step = step ∧ out = verdict := by
      rcases hv with ⟨eth, hs, rfl⟩ | ⟨hs, rfl⟩
      all_goals
        obtain rfl : step = _ := hs
        cases role <;> simp only [poll, Except.ok.injEq, Prod.mk.injEq] at hp <;>
          exact ⟨hp.1 ▸ rfl, hp.2.symm⟩
    obtain ⟨hstep, houts⟩ := ih (by rw [hsame.1]; exact hv) hrest
    exact ⟨hstep.trans hsame.1, by simpa [hsame.2] using houts⟩

/-- A verdict leaves the driver in the step it stands for. -/
theorem Says.stands {role : Role} {before after : Step} {out : HsOut} (h : Says role before after out)
    (hf : out.Final) : Step.Stands after out := by
  cases out with
  | done eth => exact .inl ⟨eth, h, rfl⟩
  | failed => exact .inr ⟨h, rfl⟩
  | send bytes => exact hf.elim
  | need => exact hf.elim

/-- Over a run: what a verdict rests on, that it is kept, and when an initiator sends. -/
theorem pollAll_held {role : Role} {networkId : ℕ} {stream : Bytes} {msgs : List Bytes}
    {h h' : Handshake} {inputs : List Bytes} {outs : List HsOut}
    (hh : Held P role networkId stream msgs h)
    (hr : pollAll (poll P) h inputs = .ok (h', outs)) :
    ∃ more, Held P role networkId (stream ++ inputs.flatten) (msgs ++ more) h'
      ∧ (∀ eth, .done eth ∈ outs → h'.step = .finish eth)
      ∧ (role = .initiator → h.step ≠ .start → ∀ bytes, .send bytes ∈ outs →
        ∃ eth, h'.step = .finish eth)
      ∧ ∀ pre verdict post, outs = pre ++ verdict :: post → verdict.Final →
        ∀ out ∈ post, out = verdict := by
  induction inputs generalizing stream msgs h outs with
  | nil =>
    obtain ⟨rfl, rfl⟩ := Prod.mk.inj (Except.ok.inj hr)
    exact ⟨[], by simpa using hh, by simp⟩
  | cons input inputs ih =>
    obtain ⟨h'', out, outs', hp, hrest, rfl⟩ := pollAll_cons hr
    obtain ⟨more, hh', htold, hstart⟩ := goes_poll hh hp
    obtain ⟨more', hheld, hdone, hsend, hfinal⟩ := ih hh' hrest
    refine ⟨more ++ more', by simpa using hheld, fun eth hm => ?_, fun hi hs bytes hm => ?_,
      fun pre verdict post heq hf => ?_⟩
    · rcases List.mem_cons.mp hm with rfl | hm
      · exact (pollAll_stands (htold.stands trivial) hrest).1.trans htold
      · exact hdone eth hm
    · rcases List.mem_cons.mp hm with rfl | hm
      · obtain ⟨eth, he⟩ := htold hi hs
        exact ⟨eth, (pollAll_stands (.inl ⟨eth, he, rfl⟩) hrest).1.trans he⟩
      · exact hsend hi hstart bytes hm
    · cases pre with
      | nil =>
        obtain ⟨rfl, rfl⟩ := List.cons.inj heq
        exact (pollAll_stands (htold.stands hf) hrest).2
      | cons o pre =>
        exact hfinal pre verdict post (List.cons.inj heq).2 hf

/-- Whatever a peer sends, a driver that does not abort is done only with an address that a message
it has read off the stream proves, and has the overlay so proved; where none proves anything it is
never done, and an initiator sends nothing after its `Syn`; and a verdict is returned for ever. -/
theorem handshake_authentic (P : Primitives) (role : Role) (mine : BzzAddress) (networkId : ℕ)
    (fullNode : Bool) (observed : Bytes) (inputs : List Bytes) (h : Handshake) (outs : List HsOut)
    (hr : pollAll (poll P) (new role mine networkId fullNode observed) inputs = .ok (h, outs)) :
    ∃ msgs, Deframes inputs.flatten msgs h.buf
      ∧ (∀ eth, .done eth ∈ outs →
        ∃ overlay, h.peerOverlay = some overlay ∧ Proves P role networkId msgs eth overlay)
      ∧ ((¬ ∃ eth overlay, Proves P role networkId msgs eth overlay) →
        (∀ eth, .done eth ∉ outs) ∧ (role = .initiator →
          (∀ out ∈ outs.head?, out = .send (frame (Syn.encode ⟨observed⟩)))
            ∧ ∀ bytes, .send bytes ∉ outs.tail))
      ∧ ∀ pre verdict post, outs = pre ++ verdict :: post → verdict.Final →
        ∀ out ∈ post, out = verdict := by
  have hstart : Held P role networkId [] [] (new role mine networkId fullNode observed) :=
    ⟨rfl, rfl, by cases role <;> trivial, rfl, by simp [new]⟩
  obtain ⟨msgs, hheld, hdone, -, hfinal⟩ := pollAll_held hstart hr
  refine ⟨msgs, hheld.read, fun eth hm => hheld.proved eth (hdone eth hm), fun hnone => ?_, hfinal⟩
  have hfinish : ∀ eth, h.step ≠ .finish eth := fun eth he => by
    obtain ⟨overlay, -, hproved⟩ := hheld.proved eth he
    exact hnone ⟨eth, overlay, hproved⟩
  refine ⟨fun eth hm => hfinish eth (hdone eth hm), ?_⟩
  rintro rfl
  cases inputs with
  | nil =>
    obtain ⟨-, rfl⟩ := Prod.mk.inj (Except.ok.inj hr)
    simp
  | cons input inputs =>
    obtain ⟨h', out, outs', hp, hrest, rfl⟩ := pollAll_cons hr
    obtain ⟨more, hh', -, hs'⟩ := goes_poll hstart hp
    obtain ⟨-, -, -, hsend, -⟩ := pollAll_held hh' hrest
    refine ⟨?_, fun bytes hm => ?_⟩
    · obtain ⟨-, rfl⟩ := Prod.mk.inj (Except.ok.inj hp)
      simp [new]
    · obtain ⟨eth, he⟩ := hsend rfl hs' bytes hm
      exact hfinish eth he

/-- An initiator that reads a responder's reply is done with the address of its key. -/
theorem handshake_authentic_done :
    ∃ (msgs : List Bytes) (overlay : Address), overlay = (BzzAddress.plain 7 1).overlay
      ∧ Proves .plain .initiator 1 msgs ⟨List.replicate 20 7, rfl⟩ overlay := by
  have hrun : (pollAll (poll .plain) (new .initiator (BzzAddress.plain 5 1) 1 true [9])
      [[], frame (SynAck.encode ⟨⟨[8]⟩, ⟨BzzAddress.plain 7 1, 1, true, ""⟩⟩), []]).toOption.map
        (fun r => (r.2.getLast?, r.1.peerOverlay))
      = some (some (.done ⟨List.replicate 20 7, rfl⟩), some (BzzAddress.plain 7 1).overlay) := by
    decide +kernel
  cases hr : pollAll (poll .plain) (new .initiator (BzzAddress.plain 5 1) 1 true [9])
      [[], frame (SynAck.encode ⟨⟨[8]⟩, ⟨BzzAddress.plain 7 1, 1, true, ""⟩⟩), []] with
  | error e =>
    rw [hr] at hrun
    cases hrun
  | ok r =>
    obtain ⟨h, outs⟩ := r
    rw [hr] at hrun
    obtain ⟨hlast, hpeer⟩ := Prod.mk.inj (Option.some.inj hrun)
    obtain ⟨msgs, -, hdone, -⟩ := handshake_authentic .plain .initiator _ 1 true [9] _ h outs hr
    obtain ⟨overlay, ho, hproves⟩ := hdone _ (List.mem_of_getLast? hlast)
    exact ⟨msgs, overlay, Option.some.inj (ho.symm.trans hpeer), hproves⟩

end Handshake

end Melissi.Net
