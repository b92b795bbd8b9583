import Melissi.Machine.Explorer

/-!
# Cycle detection is exact

Reference: `has_cycle` of `crates/machine/src/explore.rs`. The grey nodes are those on the stack,
each an edge away from the one below it, and what is done leads only to what is done and lies on no
cycle. So an edge to a grey node closes a cycle, and a search that closes none leaves no cycle
behind.
-/

namespace Melissi.Machine.Explore

open Melissi.Common

variable {adj : List (List ℕ)}

/-- An edge of the graph. -/
def Edge (adj : List (List ℕ)) (node next : ℕ) : Prop := next ∈ adj.getD node []

/-- All edges of the node were taken. -/
def Finished (colour : List Colour) (v : ℕ) : Prop := colour[v]? = some .done

/-- The stack is a path, from its bottom to the node above its top. Of each node the edges taken
lead to what is done, or to the node above. -/
def Frames (adj : List (List ℕ)) (colour : List Colour) : Option ℕ → List (ℕ × ℕ) → Prop
  | _, [] => True
  | above, (node, edge) :: stack =>
    (∀ i < edge, ∀ next, (adj.getD node [])[i]? = some next →
      Finished colour next ∨ above = some next)
      ∧ (∀ next, above = some next → Edge adj node next) ∧ Frames adj colour (some node) stack

/-- What is done stays done. -/
theorem Frames.mono {colour colour' : List Colour} {above : Option ℕ} {stack : List (ℕ × ℕ)}
    (h : Frames adj colour above stack)
    (hdone : ∀ v, Finished colour v → Finished colour' v) :
    Frames adj colour' above stack := by
  induction stack generalizing above with
  | nil => trivial
  | cons top stack ih =>
    obtain ⟨htaken, hedge, hrest⟩ := h
    exact ⟨fun i hi next hnext => (htaken i hi next hnext).imp_left (hdone next), hedge, ih hrest⟩

/-- When the node above is done it leaves the stack. -/
theorem Frames.leave {colour : List Colour} {above : ℕ} {stack : List (ℕ × ℕ)}
    (h : Frames adj colour (some above) stack) (hdone : Finished colour above) :
    Frames adj colour none stack := by
  cases stack with
  | nil => trivial
  | cons top stack =>
    obtain ⟨htaken, -, hrest⟩ := h
    refine ⟨fun i hi next hnext => .inl ?_, nofun, hrest⟩
    obtain hd | habove := htaken i hi next hnext
    · exact hd
    · rwa [← Option.some.inj habove]

/-- From every node of the stack a path leads to its top. -/
theorem Frames.reaches {colour : List Colour} {above : Option ℕ} {node edge : ℕ}
    {stack : List (ℕ × ℕ)} (h : Frames adj colour above ((node, edge) :: stack)) {v : ℕ}
    (hv : v ∈ ((node, edge) :: stack).map Prod.fst) :
    Relation.ReflTransGen (Edge adj) v node := by
  induction stack generalizing above node edge with
  | nil =>
    obtain rfl : v = node := by simpa using hv
    exact .refl
  | cons below stack ih =>
    obtain ⟨-, -, hrest⟩ := h
    rw [List.map_cons, List.mem_cons] at hv
    obtain rfl | hv := hv
    · exact .refl
    · exact (ih hrest hv).tail (hrest.2.1 node rfl)

/-- What holds of a search under way. -/
structure Searching (adj : List (List ℕ)) (d : Dfs) : Prop where
  length : d.colour.length = adj.length
  grey : ∀ v, d.colour[v]? = some .grey ↔ v ∈ d.stack.map Prod.fst
  nodup : (d.stack.map Prod.fst).Nodup
  frames : Frames adj d.colour none d.stack
  closed : ∀ v, Finished d.colour v → ∀ next, Edge adj v next →
    Finished d.colour next
  acyclic : ∀ v, Finished d.colour v → ¬ Relation.TransGen (Edge adj) v v

namespace Searching

variable {d : Dfs}

/-- What is done leads only to what is done. -/
theorem done_of_reaches (h : Searching adj d) {v w : ℕ} (hv : Finished d.colour v)
    (hvw : Relation.ReflTransGen (Edge adj) v w) : Finished d.colour w := by
  induction hvw with
  | refl => exact hv
  | tail _ hedge ih => exact h.closed _ ih _ hedge

/-- A white node is entered, over an edge of the top of the stack or as a start. -/
theorem enter (h : Searching adj d) {next : ℕ} (hwhite : d.colour[next]? = some .white)
    {stack : List (ℕ × ℕ)} (hnodes : stack.map Prod.fst = d.stack.map Prod.fst)
    (hframes : Frames adj d.colour (some next) stack) :
    Searching adj ⟨d.colour.set next .grey, (next, 0) :: stack⟩ := by
  have hlt := (List.getElem?_eq_some_iff.mp hwhite).1
  have hset : ∀ v, Finished (d.colour.set next .grey) v ↔ Finished d.colour v := by
    intro v
    rw [Finished, Finished, List.getElem?_set]
    by_cases heq : next = v
    · subst heq
      rw [if_pos rfl, if_pos hlt, hwhite]
      simp
    · rw [if_neg heq]
  refine ⟨?_, fun v => ?_, ?_, ?_, fun v hv w hvw => ?_, fun v hv => ?_⟩
  · rw [List.length_set, h.length]
  · rw [List.map_cons, List.mem_cons, hnodes, ← h.grey, List.getElem?_set]
    by_cases heq : next = v
    · subst heq
      simp [hlt]
    · rw [if_neg heq]
      exact (or_iff_right (Ne.symm heq)).symm
  · rw [List.map_cons, hnodes, List.nodup_cons]
    refine ⟨fun hmem => ?_, h.nodup⟩
    rw [(h.grey next).mpr hmem] at hwhite
    cases hwhite
  · exact ⟨fun i hi => absurd hi (Nat.not_lt_zero i), nofun,
      hframes.mono fun v hv => (hset v).mpr hv⟩
  · exact (hset w).mpr (h.closed v ((hset v).mp hv) w hvw)
  · exact h.acyclic v ((hset v).mp hv)

/-- The top of the stack is left, with all of its edges taken. It lies on no cycle: the node after
it would be done, and with it the top itself. -/
theorem leave {colour : List Colour} {node edge : ℕ} {stack : List (ℕ × ℕ)}
    (h : Searching adj ⟨colour, (node, edge) :: stack⟩) (hlast : (adj.getD node [])[edge]? = none) :
    Searching adj ⟨colour.set node .done, stack⟩ := by
  have hgrey : colour[node]? = some .grey := (h.grey node).mpr List.mem_cons_self
  have hlt := (List.getElem?_eq_some_iff.mp hgrey).1
  have hnode : Finished (colour.set node .done) node := List.getElem?_set_self hlt
  have hset : ∀ v, v ≠ node → (colour.set node .done)[v]? = colour[v]? := fun v hv =>
    List.getElem?_set_ne (Ne.symm hv)
  have hmono : ∀ v, Finished colour v → Finished (colour.set node .done) v := by
    intro v hv
    by_cases heq : v = node
    · exact heq ▸ hnode
    · exact (hset v heq).trans hv
  have hnext : ∀ next, Edge adj node next → Finished colour next := by
    intro next hedge
    obtain ⟨i, hi⟩ := List.getElem?_of_mem hedge
    have hlen := List.getElem?_eq_none_iff.mp hlast
    have hil := (List.getElem?_eq_some_iff.mp hi).1
    obtain hd | hnone := h.frames.1 i (by omega) next hi
    · exact hd
    · cases hnone
  have hnodup := h.nodup
  rw [List.map_cons, List.nodup_cons] at hnodup
  refine ⟨?_, fun v => ?_, hnodup.2, ?_, fun v hv w hvw => ?_, fun v hv hcycle => ?_⟩
  · rw [List.length_set]
    exact h.length
  · by_cases heq : v = node
    · subst heq
      rw [show (colour.set v .done)[v]? = some .done from hnode]
      exact iff_of_false (by simp) hnodup.1
    · rw [hset v heq, h.grey, List.map_cons, List.mem_cons]
      exact or_iff_right heq
  · exact (h.frames.2.2.mono hmono).leave hnode
  · by_cases heq : v = node
    · exact hmono w (hnext w (heq ▸ hvw))
    · exact hmono w (h.closed v ((hset v heq).symm.trans hv) w hvw)
  · -- a cycle through the node leaves it for what is done, and so for the node itself
    by_cases heq : v = node
    · subst heq
      obtain ⟨next, hedge, hback⟩ := Relation.TransGen.head'_iff.mp hcycle
      have hdone : Finished colour v := h.done_of_reaches (hnext next hedge) hback
      rw [Finished, hgrey] at hdone
      cases hdone
    · exact h.acyclic v ((hset v heq).symm.trans hv) hcycle

/-- An edge of the top to a node of the stack closes a cycle. -/
theorem cycle {colour : List Colour} {node edge next : ℕ} {stack : List (ℕ × ℕ)}
    (h : Searching adj ⟨colour, (node, edge) :: stack⟩)
    (hedge : (adj.getD node [])[edge]? = some next) (hgrey : colour[next]? = some .grey) :
    Relation.TransGen (Edge adj) next next :=
  Relation.TransGen.tail' (h.frames.reaches ((h.grey next).mp hgrey)) (List.mem_of_getElem? hedge)

/-- An edge of the top was taken, to a node that is done or is entered next. -/
theorem taken {colour : List Colour} {node edge next : ℕ} {stack : List (ℕ × ℕ)}
    {above : Option ℕ} (h : Searching adj ⟨colour, (node, edge) :: stack⟩)
    (hedge : (adj.getD node [])[edge]? = some next)
    (hnext : Finished colour next ∨ above = some next) (habove : ∀ v, above = some v → v = next) :
    Frames adj colour above ((node, edge + 1) :: stack) := by
  obtain ⟨htaken, -, hrest⟩ := h.frames
  refine ⟨fun i hi v hv => ?_, fun v hv => ?_, hrest⟩
  · obtain hlt | rfl := Nat.lt_succ_iff_lt_or_eq.mp hi
    · obtain hd | hnone := htaken i hlt v hv
      · exact .inl hd
      · cases hnone
    · obtain rfl : next = v := Option.some.inj (hedge.symm.trans hv)
      exact hnext
  · rw [habove v hv]
    exact List.mem_of_getElem? hedge

end Searching

/-! ## Rounds -/

/-- What is not white in the one is not white in the other. -/
def Entered (colour colour' : List Colour) : Prop :=
  ∀ v : ℕ, colour[v]? ≠ some Colour.white → colour'[v]? ≠ some Colour.white

theorem Entered.set (colour : List Colour) (i : ℕ) {c : Colour} (hc : c ≠ .white) :
    Entered colour (colour.set i c) := by
  intro v hv
  rw [List.getElem?_set]
  split
  · split
    · simpa using hc
    · simp
  · exact hv

section

variable (hin : ∀ node next, Edge adj node next → next < adj.length)

include hin

/-- A round keeps what holds of a search, and enters or leaves a node. -/
theorem Searching.round {d d' : Dfs} (h : Searching adj d) (hround : d.round adj = .inl d') :
    Searching adj d' ∧ Entered d.colour d'.colour := by
  obtain ⟨colour, stack⟩ := d
  cases stack with
  | nil => simp [Dfs.round] at hround
  | cons top stack =>
    obtain ⟨node, edge⟩ := top
    simp only [Dfs.round] at hround
    cases hedge : (adj.getD node [])[edge]? with
    | none =>
      simp only [hedge] at hround
      obtain rfl := Sum.inl.inj hround
      exact ⟨h.leave hedge, .set colour node (by simp)⟩
    | some next =>
      simp only [hedge] at hround
      have hlt : next < colour.length := by
        rw [h.length]
        exact hin node next (List.mem_of_getElem? hedge)
      cases hcolour : colour[next]? with
      | none => exact absurd (List.getElem?_eq_none_iff.mp hcolour) (not_le.mpr hlt)
      | some c =>
        cases c with
        | white =>
          simp only [hcolour] at hround
          obtain rfl := Sum.inl.inj hround
          have hframes : Frames adj colour (some next) ((node, edge + 1) :: stack) :=
            h.taken hedge (.inr rfl) fun v hv => (Option.some.inj hv).symm
          exact ⟨h.enter hcolour rfl hframes, .set colour next (by simp)⟩
        -- an edge to a grey node ends the rounds
        | grey =>
          simp only [hcolour] at hround
          cases hround
        | done =>
          simp only [hcolour] at hround
          obtain rfl := Sum.inl.inj hround
          have hframes : Frames adj colour none ((node, edge + 1) :: stack) :=
            h.taken hedge (.inl hcolour) (by simp)
          exact ⟨⟨h.length, h.grey, h.nodup, hframes, h.closed, h.acyclic⟩, fun _ hv => hv⟩

omit hin in
/-- A search ends with a cycle, or with nothing on the stack. -/
theorem Searching.ends {d : Dfs} (h : Searching adj d) {r : Option (List Colour)}
    (hround : d.round adj = .inr r) :
    (r = none ∧ ∃ v, Relation.TransGen (Edge adj) v v)
      ∨ (r = some d.colour ∧ Searching adj ⟨d.colour, []⟩) := by
  obtain ⟨colour, stack⟩ := d
  cases stack with
  | nil => exact .inr ⟨(Sum.inr.inj hround).symm, h⟩
  | cons top stack =>
    obtain ⟨node, edge⟩ := top
    simp only [Dfs.round] at hround
    cases hedge : (adj.getD node [])[edge]? with
    | none =>
      simp only [hedge] at hround
      cases hround
    | some next =>
      simp only [hedge] at hround
      split at hround
      · cases hround
      · next hgrey => exact .inl ⟨(Sum.inr.inj hround).symm, next, h.cycle hedge hgrey⟩
      · cases hround

/-- With nothing white and nothing on the stack there is no cycle. -/
theorem Searching.no_cycle {colour : List Colour} (h : Searching adj ⟨colour, []⟩)
    (hseen : ∀ v < adj.length, colour[v]? ≠ some .white) :
    ¬ ∃ v, Relation.TransGen (Edge adj) v v := by
  rintro ⟨v, hcycle⟩
  obtain ⟨w, -, hedge⟩ := Relation.TransGen.tail'_iff.mp hcycle
  have hlt := hin w v hedge
  have hlen := h.length
  have hdone : Finished colour v := by
    have hwhite := hseen v hlt
    have hgrey := mt (h.grey v).mp (by simp)
    obtain ⟨c, hc⟩ : ∃ c, colour[v]? = some c :=
      ⟨_, List.getElem?_eq_getElem (show v < colour.length from hlen ▸ hlt)⟩
    -- a node has one of three colours, and two are ruled out
    cases c with
    | white => exact absurd hc hwhite
    | grey => exact absurd hc hgrey
    | done => exact hc
  exact h.acyclic v hdone hcycle

/-- The rounds from a white start end: on a cycle, or with what was seen seen still, the start too,
and the stack empty. -/
theorem Searching.runs {colour : List Colour} (h : Searching adj ⟨colour, []⟩) {start : ℕ}
    (hwhite : colour[start]? = some .white) :
    ∃ r, (∀ fuel, Dfs.left adj ⟨colour.set start .grey, [(start, 0)]⟩ < fuel →
        iterate (Dfs.round adj) fuel ⟨colour.set start .grey, [(start, 0)]⟩ = some r)
      ∧ ((r = none ∧ ∃ v, Relation.TransGen (Edge adj) v v)
        ∨ ∃ colour', r = some colour' ∧ Searching adj ⟨colour', []⟩
          ∧ Entered (colour.set start .grey) colour') := by
  obtain ⟨r, hr, d, ⟨hd, hentered⟩, hround⟩ := iterate_returns
    (I := fun d => Searching adj d ∧ Entered (colour.set start .grey) d.colour) (Dfs.left adj)
    (fun d d' hI hround => ⟨⟨(hI.1.round hin hround).1,
      fun v hv => (hI.1.round hin hround).2 v (hI.2 v hv)⟩, Dfs.round_left hround⟩)
    ⟨colour.set start .grey, [(start, 0)]⟩ ⟨h.enter hwhite rfl trivial, fun _ hv => hv⟩
  refine ⟨r, hr, ?_⟩
  obtain hcycle | ⟨rfl, hend⟩ := hd.ends hround
  · exact .inl hcycle
  · exact .inr ⟨d.colour, rfl, hend, hentered⟩

/-- A search from every start that is left finds a cycle exactly if there is one. -/
theorem searchFrom_exact (starts : List ℕ) {colour : List Colour} (h : Searching adj ⟨colour, []⟩)
    (hseen : ∀ v < adj.length, v ∉ starts → colour[v]? ≠ some .white) :
    ∃ b rounds, (∀ fuel, rounds < fuel → searchFrom adj fuel starts colour = some b)
      ∧ (b = true ↔ ∃ v, Relation.TransGen (Edge adj) v v) := by
  induction starts generalizing colour with
  | nil =>
    exact ⟨false, 0, fun _ _ => rfl,
      iff_of_false (by simp) (h.no_cycle hin fun v hv => hseen v hv (by simp))⟩
  | cons start starts ih =>
    by_cases hwhite : colour[start]? = some .white
    · have hlt := (List.getElem?_eq_some_iff.mp hwhite).1
      obtain ⟨r, hr, ⟨rfl, hcycle⟩ | ⟨colour', rfl, hend, hentered⟩⟩ := h.runs hin hwhite
      · refine ⟨true, Dfs.left adj ⟨colour.set start .grey, [(start, 0)]⟩, fun fuel hf => ?_,
          iff_of_true rfl hcycle⟩
        rw [searchFrom, if_pos hwhite, hr fuel hf, Option.bind_some]
      · obtain ⟨b, rounds, hb, hexact⟩ := ih hend fun v hv hmem => by
          refine hentered v ?_
          by_cases heq : v = start
          · subst heq
            rw [List.getElem?_set_self hlt]
            simp
          · exact Entered.set colour start (by simp) v
              (hseen v hv (by simpa [heq] using hmem))
        refine ⟨b, max rounds (Dfs.left adj ⟨colour.set start .grey, [(start, 0)]⟩),
          fun fuel hf => ?_, hexact⟩
        rw [searchFrom, if_pos hwhite, hr fuel (lt_of_le_of_lt (le_max_right _ _) hf)]
        exact hb fuel (lt_of_le_of_lt (le_max_left _ _) hf)
    · obtain ⟨b, rounds, hb, hexact⟩ := ih h fun v hv hmem => by
        by_cases heq : v = start
        · exact heq ▸ hwhite
        · exact hseen v hv (by simpa [heq] using hmem)
      refine ⟨b, rounds, fun fuel hf => ?_, hexact⟩
      rw [searchFrom, if_neg hwhite]
      exact hb fuel hf

end

/-- The detection ends, and reports a cycle exactly if the graph has one. -/
theorem hasCycle_exact (adj : List (List ℕ))
    (hin : ∀ edges ∈ adj, ∀ next ∈ edges, next < adj.length) :
    ∃ b rounds, (∀ fuel, rounds < fuel → hasCycle adj fuel = some b)
      ∧ (b = true ↔ ∃ node, Relation.TransGen (Edge adj) node node) := by
  have hedges : ∀ node next, Edge adj node next → next < adj.length := by
    intro node next hedge
    rw [Edge, List.getD_eq_getElem?_getD] at hedge
    cases hnode : adj[node]? with
    | none => simp [hnode] at hedge
    | some edges =>
      rw [hnode, Option.getD_some] at hedge
      exact hin edges (List.mem_of_getElem? hnode) next hedge
  have hwhite : ∀ v : ℕ, ∀ c, (List.replicate adj.length Colour.white)[v]? = some c → c = .white :=
    fun v c hc => (List.eq_of_mem_replicate (List.mem_of_getElem? hc))
  refine searchFrom_exact hedges (List.range adj.length) ⟨by simp, fun v => ?_, List.nodup_nil,
    trivial, fun v hv => ?_, fun v hv => ?_⟩ fun v hv hmem => absurd (List.mem_range.mpr hv) hmem
  · refine iff_of_false (fun hc => ?_) (by simp)
    cases hwhite v _ hc
  · cases hwhite v _ hv
  · cases hwhite v _ hv

/-- Two nodes that lead to each other, beside one that leads to itself twice and one by itself. -/
theorem hasCycle_exact_pair : ∃ b rounds,
    (∀ fuel, rounds < fuel → hasCycle [[1], [0], [2, 2], []] fuel = some b)
      ∧ (b = true ↔ ∃ node, Relation.TransGen (Edge [[1], [0], [2, 2], []]) node node) :=
  hasCycle_exact _ (by decide)

end Melissi.Machine.Explore
