import Melissi.Protobuf.Fields

/-!
# Where the field walker goes

Reference: `crates/protobuf/src/lib.rs`. What the walker reads is said here without its arithmetic:
the fields one after the other, each with all of its bytes there. The walker agrees with that as
long as no length it comes to overflows the sum of the length and the size of its own varint.
-/

namespace Melissi.Protobuf

/-! ## The field at the front -/

/-- The length-delimited field at the front, if there is one: the bytes behind its tag, the size of
the varint there and the length that it claims. -/
def claim (b : List UInt8) : Option (List UInt8 × ℕ × ℕ) :=
  (getUvarint b).bind fun (tag, n) =>
    if tag % 8 = 2 then (getUvarint (b.drop n)).map fun (len, k) => (b.drop n, k, len) else none

/-- The claimed length and the size of its varint do not fit in 64 bits together. -/
def Overflows (b : List UInt8) : Prop :=
  ∃ behind k len, claim b = some (behind, k, len) ∧ 2 ^ 64 ≤ k + len

/-- The claimed length is of more bytes than remain behind its varint. -/
def Overclaims (b : List UInt8) : Prop :=
  ∃ behind k len, claim b = some (behind, k, len) ∧ (behind.drop k).length < len

/-- The field at the front, if all of it is there, and the bytes after it. -/
def headField (b : List UInt8) : Option (Field × List UInt8) :=
  (getUvarint b).bind fun (tag, n) =>
    let behind := b.drop n
    let cut wireType len b := if b.length < len then none
      else some (⟨tag / 8 % 2 ^ 32, wireType, b.take len⟩, b.drop len)
    match tag % 8 with
    | 0 => (getUvarint behind).map fun (_, k) =>
        (⟨tag / 8 % 2 ^ 32, 0, behind.take k⟩, behind.drop k)
    | 1 => cut 1 8 behind
    | 2 => (getUvarint behind).bind fun (len, k) => cut 2 len (behind.drop k)
    | 5 => cut 5 4 behind
    | _ => none

/-- A field is read as it stands at the front, unless its length overflows. -/
theorem nextField_eq {b : List UInt8} (h : ¬ Overflows b) : nextField b = .ok (headField b) := by
  rw [nextField, headField]
  cases hget : getUvarint b with
  | none => rfl
  | some r =>
    obtain ⟨tag, n⟩ := r
    simp only [Option.bind_some, takePayload]
    by_cases h0 : tag % 8 = 0
    · -- The bytes of a varint that was read are there.
      simp only [h0]
      cases hval : getUvarint (b.drop n) with
      | none => rfl
      | some r =>
        obtain ⟨v, k⟩ := r
        have hk := (getUvarint_spec hval).2.1
        simp only [Option.map_some]
        rw [if_neg (by omega)]
    · by_cases h2 : tag % 8 = 2
      · simp only [h2]
        cases hval : getUvarint (b.drop n) with
        | none => rfl
        | some r =>
          obtain ⟨len, k⟩ := r
          have hclaim : claim b = some (b.drop n, k, len) := by
            simp only [claim, hget, Option.bind_some, h2, if_true, hval, Option.map_some]
          have hfit : ¬ 2 ^ 64 ≤ k + len := fun hover => h ⟨_, _, _, hclaim, hover⟩
          simp only [Option.bind_some]
          rw [if_neg hfit]
      · have hlt : tag % 8 < 8 := Nat.mod_lt _ (by decide)
        generalize tag % 8 = wireType at *
        interval_cases wireType <;> first | rfl | exact absurd rfl ‹_›

/-- Where the length overflows, the walker aborts. -/
theorem nextField_overflows {b : List UInt8} (h : Overflows b) :
    nextField b = .error "attempt to add with overflow" := by
  obtain ⟨behind, k, len, hclaim, hover⟩ := h
  rw [claim, Option.bind_eq_some_iff] at hclaim
  obtain ⟨⟨tag, n⟩, hget, hclaim⟩ := hclaim
  simp only at hclaim
  split at hclaim
  · next h2 =>
    obtain ⟨⟨len', k'⟩, hval, heq⟩ := Option.map_eq_some_iff.mp hclaim
    obtain ⟨rfl, rfl, rfl⟩ : b.drop n = behind ∧ k' = k ∧ len' = len := by simpa using heq
    rw [nextField]
    simp only [hget, h2, hval]
    rw [if_pos hover]
  · cases hclaim

/-- A field that claims more than remains is not there. -/
theorem headField_overclaims {b : List UInt8} (h : Overclaims b) : headField b = none := by
  obtain ⟨behind, k, len, hclaim, hover⟩ := h
  rw [claim, Option.bind_eq_some_iff] at hclaim
  obtain ⟨⟨tag, n⟩, hget, hclaim⟩ := hclaim
  simp only at hclaim
  split at hclaim
  · next h2 =>
    obtain ⟨⟨len', k'⟩, hval, heq⟩ := Option.map_eq_some_iff.mp hclaim
    obtain ⟨rfl, rfl, rfl⟩ : b.drop n = behind ∧ k' = k ∧ len' = len := by simpa using heq
    rw [headField, hget]
    simp only [Option.bind_some, h2, hval]
    rw [if_pos hover]
  · cases hclaim

theorem Overclaims.ne_nil {b : List UInt8} (h : Overclaims b) : b ≠ [] := by
  rintro rfl
  obtain ⟨behind, k, len, hclaim, -⟩ := h
  cases hclaim

theorem Overflows.ne_nil {b : List UInt8} (h : Overflows b) : b ≠ [] := by
  rintro rfl
  obtain ⟨behind, k, len, hclaim, -⟩ := h
  cases hclaim

/-! ## The walk -/

/-- `c` is what is left of `b` behind some of its fields. -/
inductive Reaches : List UInt8 → List UInt8 → Prop
  | here (b : List UInt8) : Reaches b b
  | next {b rest c : List UInt8} {f : Field} (hf : headField b = some (f, rest))
      (hc : Reaches rest c) : Reaches b c

theorem Reaches.nil {c : List UInt8} (h : Reaches [] c) : c = [] := by
  cases h with
  | here => rfl
  | next hf _ => cases hf

/-- Behind a first field stands either the message itself or what its rest reaches. -/
theorem Reaches.cons_iff {b rest c : List UInt8} {f : Field} (hf : headField b = some (f, rest)) :
    Reaches b c ↔ c = b ∨ Reaches rest c := by
  constructor
  · intro h
    cases h with
    | here => exact .inl rfl
    | next hf' hc =>
      obtain ⟨-, rfl⟩ := Prod.mk.inj (Option.some.inj (hf.symm.trans hf'))
      exact .inr hc
  · rintro (rfl | hc)
    · exact .here _
    · exact .next hf hc

theorem Reaches.of_none {b c : List UInt8} (hf : headField b = none) (h : Reaches b c) : c = b := by
  cases h with
  | here => rfl
  | next hf' _ => simp [hf] at hf'

/-- The walk is the loop of the source: at the end it stops, and otherwise it reads a field and goes
on with what is behind it, which is shorter. -/
theorem fields_loop (b : List UInt8) : fields b =
    if b = [] then .ok ([], true)
    else match nextField b with
      | .error e => .error e
      | .ok none => .ok ([], false)
      | .ok (some (f, rest)) => (fields rest).map fun r => (f :: r.1, r.2) := by
  by_cases hb : b = []
  · rw [hb, if_pos rfl, fields_nil]
  rw [if_neg hb]
  obtain ⟨n, hn⟩ := Nat.exists_eq_succ_of_ne_zero (fun h => hb (List.length_eq_zero_iff.mp h))
  cases hnext : nextField b with
  | error e => rw [fields, hn, fieldsWithin, if_neg hb, hnext]
  | ok r =>
    cases r with
    | none => rw [fields, hn, fieldsWithin, if_neg hb, hnext]
    | some r => exact fields_next hnext

/-- The fields that were read and whether the message was whole, said of the walk. -/
structure Walked (b : List UInt8) (fs : List Field) (whole : Bool) : Prop where
  mem (f : Field) : f ∈ fs ↔ ∃ c rest, Reaches b c ∧ headField c = some (f, rest)
  whole : whole = true ↔ ∀ c, Reaches b c → c ≠ [] → headField c ≠ none

/-- Without an overflow on its way the walk returns, with the fields it comes to. -/
theorem fields_walked {b : List UInt8} (h : ∀ c, Reaches b c → ¬ Overflows c) :
    ∃ fs whole, fields b = .ok (fs, whole) ∧ Walked b fs whole := by
  induction hn : b.length using Nat.strong_induction_on generalizing b with
  | _ n ih =>
    rw [fields_loop]
    by_cases hb : b = []
    · subst hb
      refine ⟨[], true, if_pos rfl, ⟨fun f => ?_, ?_⟩⟩
      · constructor
        · intro hmem
          cases hmem
        · rintro ⟨c, rest, hc, hhead⟩
          rw [hc.nil] at hhead
          cases hhead
      · exact iff_of_true rfl fun c hc hne => absurd hc.nil hne
    rw [if_neg hb, nextField_eq (h b (.here b))]
    cases hhead : headField b with
    | none =>
      refine ⟨[], false, rfl, ⟨fun f => ?_, ?_⟩⟩
      · constructor
        · intro hmem
          cases hmem
        · rintro ⟨c, rest, hc, hf⟩
          rw [hc.of_none hhead, hhead] at hf
          cases hf
      · exact iff_of_false (by decide) fun hall => hall b (.here b) hb hhead
    | some r =>
      obtain ⟨f, rest⟩ := r
      have hshort := nextField_shorter ((nextField_eq (h b (.here b))).trans (congrArg _ hhead))
      obtain ⟨fs, whole, hfields, hwalked⟩ := ih rest.length (by omega)
        (fun c hc => h c (.next hhead hc)) rfl
      refine ⟨f :: fs, whole, by simp only [hfields, Except.map], ⟨fun g => ?_, ?_⟩⟩
      · rw [List.mem_cons, hwalked.mem]
        constructor
        · rintro (rfl | ⟨c, rest', hc, hg⟩)
          · exact ⟨b, rest, .here b, hhead⟩
          · exact ⟨c, rest', .next hhead hc, hg⟩
        · rintro ⟨c, rest', hc, hg⟩
          rcases (Reaches.cons_iff hhead).mp hc with rfl | hc
          · rw [hhead] at hg
            exact .inl (congrArg Prod.fst (Option.some.inj hg)).symm
          · exact .inr ⟨c, rest', hc, hg⟩
      · rw [hwalked.whole]
        constructor
        · intro hall c hc hne
          rcases (Reaches.cons_iff hhead).mp hc with rfl | hc
          · simp [hhead]
          · exact hall c hc hne
        · exact fun hall c hc => hall c (.next hhead hc)

/-- A walk that comes to an overflow aborts. -/
theorem fields_overflows {b c : List UInt8} (hc : Reaches b c) (h : Overflows c) :
    ∃ e, fields b = .error e := by
  induction hc with
  | here b => exact ⟨_, by rw [fields_loop, if_neg h.ne_nil, nextField_overflows h]⟩
  | @next b rest c f hf _ ih =>
    obtain ⟨e, he⟩ := ih h
    rw [fields_loop]
    have hb : b ≠ [] := by
      rintro rfl
      cases hf
    rw [if_neg hb]
    by_cases hover : Overflows b
    · exact ⟨_, by rw [nextField_overflows hover]⟩
    · refine ⟨e, ?_⟩
      rw [nextField_eq hover, hf]
      simp only [he, Except.map]

/-- The walk returns exactly where it comes to no overflow. -/
theorem fields_returns_iff {b : List UInt8} :
    Returns fields b ↔ ∀ c, Reaches b c → ¬ Overflows c := by
  constructor
  · rintro ⟨r, hr⟩ c hc hover
    obtain ⟨e, he⟩ := fields_overflows hc hover
    rw [hr] at he
    cases he
  · intro h
    obtain ⟨fs, whole, hfields, -⟩ := fields_walked h
    exact ⟨_, hfields⟩

/-- A message in which some field claims more than remains is not whole. -/
theorem fields_overclaims {b c : List UInt8} {fs : List Field} {whole : Bool} (hc : Reaches b c)
    (h : Overclaims c) (hfields : fields b = .ok (fs, whole)) : whole = false := by
  obtain ⟨fs', whole', hfields', hwalked⟩ :=
    fields_walked (fields_returns_iff.mp ⟨_, hfields⟩)
  obtain ⟨-, rfl⟩ := Prod.mk.inj (Except.ok.inj (hfields'.symm.trans hfields))
  refine Bool.eq_false_iff.mpr fun hwhole => ?_
  exact hwalked.whole.mp hwhole c hc h.ne_nil (headField_overclaims h)

/-! ## Messages in messages -/

/-- How a decoder takes its fields: the payload as bytes, or as a message of its own, of which each
field number has a shape again. -/
inductive Shape
  | bytes
  | message (sub : ℕ → Shape)

/-- Neither the walk through the message nor one through a field of it that is a message comes to an
overflow. -/
def Shape.Fits : Shape → List UInt8 → Prop
  | .bytes, _ => True
  | .message sub, b => ∀ c, Reaches b c → ¬ Overflows c
      ∧ ∀ f rest, headField c = some (f, rest) → (sub f.number).Fits f.payload

theorem foldlM_returns_iff {σ : Type} {step : σ → Field → Except String σ} {good : Field → Prop}
    (h : ∀ s f, (∃ t, step s f = .ok t) ↔ good f) (fs : List Field) (s : σ) :
    (∃ t, fs.foldlM step s = .ok t) ↔ ∀ f ∈ fs, good f := by
  induction fs generalizing s with
  | nil => exact iff_of_true ⟨s, rfl⟩ (by simp)
  | cons f fs ih =>
    rw [List.foldlM_cons, List.forall_mem_cons, ← h s f]
    cases hstep : step s f with
    | error e => exact iff_of_false (by rintro ⟨t, ht⟩; cases ht) (by rintro ⟨⟨t, ht⟩, -⟩; cases ht)
    | ok t =>
      refine (ih t).trans ⟨fun hall => ⟨⟨t, rfl⟩, hall⟩, fun hall => hall.2⟩

/-- Walking a message and folding a callback over its fields returns exactly where the message fits.
-/
theorem walk_returns_iff {σ : Type} {step : σ → Field → Except String σ} {sub : ℕ → Shape}
    (h : ∀ s f, (∃ t, step s f = .ok t) ↔ (sub f.number).Fits f.payload) {b : List UInt8} (s : σ) :
    (∃ fs whole t, fields b = .ok (fs, whole) ∧ fs.foldlM step s = .ok t)
      ↔ (Shape.message sub).Fits b := by
  rw [Shape.Fits]
  constructor
  · rintro ⟨fs, whole, t, hfields, ht⟩ c hc
    have hover := fields_returns_iff.mp ⟨_, hfields⟩
    obtain ⟨fs', whole', hfields', hwalked⟩ := fields_walked hover
    obtain ⟨rfl, -⟩ := Prod.mk.inj (Except.ok.inj (hfields'.symm.trans hfields))
    have hall := (foldlM_returns_iff h fs' s).mp ⟨t, ht⟩
    exact ⟨hover c hc, fun f rest hf => hall f ((hwalked.mem f).mpr ⟨c, rest, hc, hf⟩)⟩
  · intro hfits
    obtain ⟨fs, whole, hfields, hwalked⟩ := fields_walked fun c hc => (hfits c hc).1
    have hall : ∀ f ∈ fs, (sub f.number).Fits f.payload := by
      intro f hf
      obtain ⟨c, rest, hc, hhead⟩ := (hwalked.mem f).mp hf
      exact (hfits c hc).2 f rest hhead
    obtain ⟨t, ht⟩ := (foldlM_returns_iff h fs s).mpr hall
    exact ⟨fs, whole, t, hfields, ht⟩

section Decode

variable {σ : Type} {step : σ → Field → Except String σ}

/-- A decoder returns exactly where the message fits its shape. -/
theorem decodeWith_returns_iff {sub : ℕ → Shape}
    (h : ∀ s f, (∃ t, step s f = .ok t) ↔ (sub f.number).Fits f.payload) (s : σ)
    (b : List UInt8) : Returns (decodeWith step s) b ↔ (Shape.message sub).Fits b := by
  rw [← walk_returns_iff h s]
  constructor
  · rintro ⟨r, hr⟩
    rw [decodeWith] at hr
    split at hr
    · cases hr
    · next fs whole hfields =>
      cases ht : fs.foldlM step s with
      | error e => rw [ht] at hr; cases hr
      | ok t => exact ⟨fs, whole, t, hfields, ht⟩
  · rintro ⟨fs, whole, t, hfields, ht⟩
    refine ⟨if whole then some t else none, ?_⟩
    rw [decodeWith, hfields]
    simp only [ht, Except.map]

/-- A decoder gives none for a message in which some field claims more than remains. -/
theorem decodeWith_overclaims {s : σ} {b c : List UInt8} {r : Option σ} (hc : Reaches b c)
    (h : Overclaims c) (hr : decodeWith step s b = .ok r) : r = none := by
  rw [decodeWith] at hr
  split at hr
  · cases hr
  · next fs whole hfields =>
    obtain rfl := fields_overclaims hc h hfields
    cases ht : fs.foldlM step s with
    | error e => rw [ht] at hr; cases hr
    | ok t =>
      rw [ht] at hr
      exact (Except.ok.inj hr).symm

/-- A callback that returns on every field: the shape of a flat message. -/
theorem returns_flat {f : σ → Field → σ} (s : σ) (g : Field) :
    (∃ t, (Except.ok (f s g) : Except String σ) = .ok t) ↔ Shape.bytes.Fits g.payload :=
  iff_of_true ⟨_, rfl⟩ trivial

end Decode

end Melissi.Protobuf
