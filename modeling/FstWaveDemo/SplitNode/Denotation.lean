import FstWaveDemo.SplitNode.Component

/-! # What the operations on components denote

Each operation on components, described by the elements that it finds in the store and
those that it leaves there (`SplitNode.NodeComponent.selectLoop_spec`,
`SplitNode.NodeComponent.join_spec`), and from that by the bits of the components.
-/

namespace SplitNode

open Bits (bit? slice word)
open Store (Frame Holds contents)

variable {N : Type}

namespace NodeComponent

/-- Elements have been added to a list of a component. -/
structure Grown (side : Side) (comp comp' : NodeComponent) (places : List Nat) (total : Int) :
    Prop where
  own : comp'.list side = comp.list side ++ places
  other : ∀ other, other ≠ side → comp'.list other = comp.list other
  width : (comp'.width : Int) = comp.width + if side = .elements then total else 0

/-- The width of a component does not overflow when it grows. -/
def Room (side : Side) (comp : NodeComponent) (total : Int) : Prop :=
  side = .elements → 0 ≤ (comp.width : Int) ∧ (comp.width : Int) + total < 2 ^ 31

variable {side : Side} {comp comp' comp'' : NodeComponent} {s : Store (NodeElement N)}
  {places places' : List Nat} {total total' : Int} {elements others : List (NodeElement N)}

namespace Grown

theorem refl (side : Side) (comp : NodeComponent) : Grown side comp comp [] 0 :=
  ⟨(List.append_nil _).symm, fun _ _ => rfl, by simp⟩

theorem trans (first : Grown side comp comp' places total)
    (second : Grown side comp' comp'' places' total') :
    Grown side comp comp'' (places ++ places') (total + total') := by
  refine ⟨?_, fun other apart => (second.other other apart).trans (first.other other apart), ?_⟩
  · rw [second.own, first.own, List.append_assoc]
  · rw [second.width, first.width]
    split <;> omega

/-- What is left of the room. -/
theorem room (grown : Grown side comp comp' places total) (nonneg : 0 ≤ total)
    (enough : Room side comp (total + total')) : Room side comp' total' := by
  intro own
  obtain ⟨low, high⟩ := enough own
  rw [grown.width, if_pos own]
  omega

end Grown

/-- One element is added. -/
theorem add_spec {place : Nat} {e : NodeElement N} (here : s[place]? = some e)
    (order : (e.lo : Int) ≤ e.hi) (wide : (e.hi : Int) - e.lo + 1 < 2 ^ 31)
    (room : Room side comp ((e.hi : Int) - e.lo + 1)) :
    ∃ comp', add side s comp place = some comp' ∧
      Grown side comp comp' [place] ((e.hi : Int) - e.lo + 1) := by
  cases side with
  | elements =>
      obtain ⟨low, high⟩ := room rfl
      obtain ⟨span, found, same⟩ := NodeElement.span_eq order wide
      obtain ⟨width, found', same'⟩ := @CInt.exists_of (comp.width + span) (by omega) (by omega)
      refine ⟨{ comp with elements := comp.elements ++ [place], width }, ?_, rfl, ?_, ?_⟩
      · change addElement s comp place = _
        simp only [addElement, bind, here, Option.bind_some, found, found']
      · intro other apart
        cases other with
        | elements => exact absurd rfl apart
        | directElements => rfl
      · change (width : Int) = _
        rw [same', same, if_pos rfl]
  | directElements =>
      refine ⟨{ comp with directElements := comp.directElements ++ [place] }, rfl, rfl, ?_, ?_⟩
      · intro other apart
        cases other with
        | elements => rfl
        | directElements => exact absurd rfl apart
      · change (comp.width : Int) = _
        rw [if_neg (by decide), Int.add_zero]

/-- One new element is added. -/
theorem add_fresh (e : NodeElement N) (order : (e.lo : Int) ≤ e.hi)
    (wide : (e.hi : Int) - e.lo + 1 < 2 ^ 31) (room : Room side comp ((e.hi : Int) - e.lo + 1)) :
    ∃ comp', add side (s ++ [e]) comp s.length = some comp' ∧
      Grown side comp comp' [s.length] ((e.hi : Int) - e.lo + 1) :=
  add_spec (by rw [List.getElem?_append_right (Nat.le_refl _), Nat.sub_self]; rfl) order wide room

/-- One round of the loop at an element that the selection reaches: the selected bits of it
are added as a new element, and the loop ends at the element with the bit `lo`. -/
theorem selectLoop_reaches {hi lo w rest span : CInt} {place : Nat} {e : NodeElement N}
    (here : s[place]? = some e) (refers : e.Refers) (least : (e.lo : Int) ≤ e.hi)
    (found : e.span = some span) (found' : CInt.of (w - span) = some rest)
    (same : (w : Int) = rest + ((e.hi : Int) - e.lo + 1))
    (nonneg : 0 ≤ (rest : Int)) (order : (lo : Int) ≤ hi) (above : (lo : Int) < w)
    (reached : (rest : Int) ≤ hi) {start : Bool}
    (begins : (start || decide ((w : Int) > hi ∧ (rest : Int) ≤ hi)) = true)
    (room : Room side comp (min (hi : Int) (w - 1) - max (lo : Int) rest + 1)) :
    ∃ (ret : NodeElement N) (comp' : NodeComponent),
      selectLoop side hi lo (place :: places) w start comp s =
        (if (rest : Int) ≤ lo then some (comp', s ++ [ret])
          else selectLoop side hi lo places rest true comp' (s ++ [ret])) ∧
      Grown side comp comp' [s.length] ((ret.hi : Int) - ret.lo + 1) ∧ ret.WellFormed ∧
      (ret.hi : Int) - ret.lo = min (hi : Int) (w - 1) - max (lo : Int) rest ∧
      ret.bits = slice (min (hi : Int) (w - 1) - rest).toNat (max (lo : Int) rest - rest).toNat
        e.bits := by
  have most := w.high
  obtain ⟨top, found₁, same₁⟩ := @CInt.exists_of (w - 1) (by omega) (by omega)
  obtain ⟨selectHigh, found₂, same₂⟩ :=
    @CInt.exists_of (min (hi : Int) top - rest) (by omega) (by omega)
  obtain ⟨selectLo, found₃, same₃⟩ :=
    @CInt.exists_of (max (lo : Int) rest - rest) (by omega) (by omega)
  obtain ⟨ret, got, formed, width, bits⟩ := @NodeElement.getBits_spec N e selectHigh selectLo
    refers (by omega) (by omega) (by omega) (by omega)
  obtain ⟨comp', added, grown⟩ := @add_fresh N side comp s ret formed.order (by omega)
    (fun own => by have enough := room own; omega)
  refine ⟨ret, comp', ?_, grown, formed, by omega, by rw [bits, same₂, same₃, same₁]⟩
  simp only [selectLoop, bind, here, found, found', begins, if_true, found₁, found₂, found₃, got,
    added, Option.bind_some]

/-- The loop adds new elements with the bits from `hi` down to `lo`, as far as the source has
them. Once it has started, `hi` is above the elements that are left. -/
theorem selectLoop_spec {hi lo w : CInt} (holds : Holds s places elements)
    (formed : ∀ e ∈ elements, e.WellFormed) (refers : ∀ e ∈ elements, e.Refers)
    (whole : (w : Int) = totalWidth elements) (low : 0 ≤ (lo : Int)) (order : (lo : Int) ≤ hi)
    (above : (lo : Int) < w) {start : Bool} (started : start = true → (w : Int) ≤ hi)
    (waiting : start = false → (hi : Int) < w)
    (room : Room side comp (min (hi : Int) (w - 1) - lo + 1)) :
    ∃ selected comp', selectLoop side hi lo places w start comp s = some (comp', s ++ selected) ∧
      Grown side comp comp' (List.range' s.length selected.length) (totalWidth selected) ∧
      (∀ e ∈ selected, e.WellFormed) ∧
      denote selected =
        slice (min (hi : Int) (w - 1)).toNat (lo : Int).toNat (denote elements) := by
  induction places generalizing elements w start comp s with
  | nil =>
      obtain rfl := Store.holds_nil.mp holds
      have none : (w : Int) = 0 := whole
      omega
  | cons place places ih =>
      obtain ⟨e, elements, rfl, here, holds⟩ := Store.holds_cons.mp holds
      have formed' : ∀ other ∈ elements, other.WellFormed := fun other member =>
        formed other (List.mem_cons_of_mem _ member)
      have refers' : ∀ other ∈ elements, other.Refers := fun other member =>
        refers other (List.mem_cons_of_mem _ member)
      have least := (formed e List.mem_cons_self).order
      have wide := (formed e List.mem_cons_self).width_eq
      have most := w.high
      rw [totalWidth_cons] at whole
      have nonneg := totalWidth_nonneg formed'
      obtain ⟨span, found, same⟩ := NodeElement.span_eq least (by omega)
      obtain ⟨rest, found', same'⟩ := @CInt.exists_of (w - span) (by omega) (by omega)
      have length : (denote elements).length = (rest : Int).toNat := by
        have counted := length_denote formed'
        omega
      have whole' : (rest : Int) = totalWidth elements := by omega
      have lengths : (e.bits ++ denote elements).length = (w : Int).toNat := by
        rw [List.length_append, NodeElement.length_bits, length]
        omega
      by_cases begins : (start || decide ((w : Int) > hi ∧ (rest : Int) ≤ hi)) = true
      · have reached : (rest : Int) ≤ hi := by
          rcases Bool.or_eq_true_iff.mp begins with already | now
          · have passed := started already
            omega
          · exact (of_decide_eq_true now).2
        obtain ⟨ret, comp', round, grown, formedRet, width, bits⟩ := @selectLoop_reaches N side
          comp s places hi lo w rest span place e here (refers e List.mem_cons_self) least found
          found' (by omega) (by omega) order above reached start begins
          (fun own => by have enough := room own; omega)
        rw [round, denote_cons]
        by_cases last : (rest : Int) ≤ lo
        · refine ⟨[ret], comp', by rw [if_pos last], ?_, by simpa using formedRet, ?_⟩
          · simpa using grown
          · rw [Bits.slice_high (by omega) (by omega) (by omega), length]
            refine (List.append_nil _).trans (bits.trans ?_)
            congr 1
            · omega
            · omega
        · have left : Room side comp' (min (hi : Int) (rest - 1) - lo + 1) :=
            grown.room (by have order := formedRet.order; omega) fun own => by
              have enough := room own
              omega
          obtain ⟨selected, comp'', looped, grown', formedAll, bits'⟩ := ih (holds.extend [ret])
            formed' refers' whole' (by omega) (fun _ : true = true => reached)
            (fun impossible => by cases impossible) left
          refine ⟨ret :: selected, comp'', ?_, ?_, List.forall_mem_cons.mpr ⟨formedRet, formedAll⟩,
            ?_⟩
          · rw [if_neg last, looped, List.append_assoc]
            rfl
          · have both := grown.trans grown'
            rw [List.length_append] at both
            rw [totalWidth_cons]
            exact both
          · rw [Bits.slice_across (by omega) (by omega) (by omega), denote_cons, bits, bits',
              length]
            congr 1
            · congr 1
              · omega
              · omega
            · congr 1
              omega
      · have idle : start = false := by
          cases start with
          | false => rfl
          | true => exact absurd rfl begins
        have later : (hi : Int) < rest := by
          have missed : ¬ ((w : Int) > hi ∧ (rest : Int) ≤ hi) := fun now =>
            begins (by rw [decide_eq_true now, Bool.or_true])
          have before := waiting idle
          omega
        have left : Room side comp (min (hi : Int) (rest - 1) - lo + 1) := fun own => by
          have enough := room own
          omega
        obtain ⟨selected, comp', looped, grown, formedAll, bits⟩ := ih holds formed' refers' whole'
          (by omega) (fun impossible : false = true => by cases impossible) (fun _ => later) left
        have quiet : (start || decide ((w : Int) > hi ∧ (rest : Int) ≤ hi)) = false := by
          simpa using begins
        simp only [selectLoop, bind, here, Option.bind_some, found, found', quiet,
          Bool.false_eq_true, if_false, denote_cons]
        refine ⟨selected, comp', looped, grown, formedAll, bits.trans ?_⟩
        rw [Bits.slice_low (by omega)]
        congr 1
        omega

/-- The constant zero that fills a selection up. -/
theorem zero_spec {top : CInt} (wide : 0 ≤ (top : Int)) (room : (top : Int) + 1 < 2 ^ 31) :
    ∃ zero : NodeElement N, NodeElement.ofInt 0 top 0 = some zero ∧ zero.WellFormed ∧
      (zero.hi : Int) - zero.lo = top ∧
      zero.bits = word ((top : Int) + 1).toNat fun _ => .const false := by
  obtain ⟨zero, made, formed, -, width, bits⟩ := NodeElement.updateWidth_spec
    (e := (⟨.ELE_INT, none, 0, top, 0, []⟩ : NodeElement N)) rfl (Int.le_refl 0) wide
    (by change (top : Int) - (0 : CInt) + 1 < 2 ^ 31; rw [CInt.coe_zero, Int.sub_zero]; exact room)
  refine ⟨zero, made, formed, width.trans (Int.sub_zero _), bits.trans ?_⟩
  simp only [CInt.coe_zero, Int.sub_zero, Nat.zero_testBit]

/-- Above the source, a constant zero is added, and the last bit of the source is the first
one that is left to select. -/
theorem pad_spec {hi lo w : CInt} (nonneg : 0 ≤ (w : Int)) (low : 0 ≤ (lo : Int))
    (order : (lo : Int) ≤ hi) (beyond : (hi : Int) ≥ w) (wide : (hi : Int) - lo + 1 < 2 ^ 31)
    (room : Room side comp ((hi : Int) - lo + 1)) :
    ∃ (zero : NodeElement N) (below : CInt) (comp' : NodeComponent),
      pad side w comp hi lo s = some (comp', below, s ++ [zero]) ∧
      (below : Int) = max (lo : Int) (w - 1) ∧ zero.WellFormed ∧
      (zero.hi : Int) - zero.lo = hi - max (lo : Int) w ∧
      zero.bits = word ((hi : Int) - max (lo : Int) w + 1).toNat (fun _ => .const false) ∧
      Grown side comp comp' [s.length] ((zero.hi : Int) - zero.lo + 1) := by
  have most := hi.high
  obtain ⟨top, found, same⟩ := @CInt.exists_of (hi - max (lo : Int) w) (by omega) (by omega)
  obtain ⟨zero, made, formed, width, bits⟩ := @zero_spec N top (by omega) (by omega)
  obtain ⟨comp', added, grown⟩ := @add_fresh N side comp s zero formed.order (by omega)
    (fun own => by have enough := room own; omega)
  obtain ⟨last, found', same'⟩ := @CInt.exists_of (w - 1) (by omega) (by omega)
  obtain ⟨below, found'', same''⟩ := @CInt.exists_of (max (lo : Int) last) (by omega) (by omega)
  refine ⟨zero, below, comp', ?_, by rw [same'', same'], formed, by rw [width, same],
    by rw [bits, same], grown⟩
  rw [pad, if_pos beyond]
  simp only [bind, found, found', found'', made, added, Option.bind_some]

/-- The loop on a selection that the source has all bits of. -/
theorem selectLoop_within {hi lo w : CInt} (holds : Holds s places elements)
    (formed : ∀ e ∈ elements, e.WellFormed) (refers : ∀ e ∈ elements, e.Refers)
    (whole : (w : Int) = totalWidth elements) (low : 0 ≤ (lo : Int)) (order : (lo : Int) ≤ hi)
    (within : (hi : Int) < w) (room : Room side comp ((hi : Int) - lo + 1)) :
    ∃ selected comp', selectLoop side hi lo places w false comp s = some (comp', s ++ selected) ∧
      Grown side comp comp' (List.range' s.length selected.length) (totalWidth selected) ∧
      (∀ e ∈ selected, e.WellFormed) ∧ totalWidth selected = (hi : Int) - lo + 1 ∧
      ∀ i : Nat, (i : Int) < (hi : Int) - lo + 1 →
        bit? (denote selected) i = bit? (denote elements) ((lo : Int).toNat + i) := by
  have counted := length_denote formed
  have least : min (hi : Int) (w - 1) = hi := by omega
  obtain ⟨selected, comp', looped, grown, formed', bits⟩ := selectLoop_spec holds formed refers
    whole low order (by omega) (fun impossible : false = true => by cases impossible)
    (fun _ => within) (by rw [least]; exact room)
  rw [least] at bits
  have inside : (hi : Int).toNat < (denote elements).length := by omega
  refine ⟨selected, comp', looped, grown, formed', ?_, fun i below => ?_⟩
  · rw [← length_denote formed', bits, Bits.length_slice inside]
    omega
  · rw [bits, Bits.bit?_slice inside, if_pos (by omega)]

/-- What is selected: the bits from `hi` down to `lo`, and zeros above the source. -/
theorem select_spec {hi lo w : CInt} (holds : Holds s places elements)
    (formed : ∀ e ∈ elements, e.WellFormed) (refers : ∀ e ∈ elements, e.Refers)
    (whole : (w : Int) = totalWidth elements) (low : 0 ≤ (lo : Int)) (order : (lo : Int) ≤ hi)
    (wide : (hi : Int) - lo + 1 < 2 ^ 31) (room : Room side comp ((hi : Int) - lo + 1)) :
    ∃ selected comp', select side places w comp hi lo s = some (comp', s ++ selected) ∧
      Grown side comp comp' (List.range' s.length selected.length) (totalWidth selected) ∧
      (∀ e ∈ selected, e.WellFormed) ∧ totalWidth selected = (hi : Int) - lo + 1 ∧
      ∀ i : Nat, (i : Int) < (hi : Int) - lo + 1 → bit? (denote selected) i =
        if (lo : Int) + i < w then bit? (denote elements) ((lo : Int).toNat + i)
        else some (.const false) := by
  have nonneg := totalWidth_nonneg formed
  by_cases beyond : (hi : Int) ≥ w
  · obtain ⟨zero, below, comp₁, padded, last, formedZero, widthZero, bitsZero, grown⟩ :=
      @pad_spec N side comp s hi lo w (by omega) low order beyond wide room
    have started : select side places w comp hi lo s = if (below : Int) < w then
        selectLoop side below lo places w false comp₁ (s ++ [zero])
        else some (comp₁, s ++ [zero]) := by
      rw [select, padded]
      rfl
    by_cases none : (lo : Int) ≥ w
    · have formedAll : ∀ e ∈ [zero], e.WellFormed := by simpa using formedZero
      refine ⟨[zero], comp₁, ?_, ?_, formedAll, ?_, fun i inside => ?_⟩
      · rw [started, if_neg (by omega)]
      · simpa using grown
      · rw [totalWidth_cons, totalWidth_nil]
        omega
      · rw [if_neg (by omega), denote_cons, denote_nil, List.append_nil, bitsZero, Bits.bit?_word,
          if_pos (by omega)]
    · obtain ⟨selected, comp₂, looped, grown', formedSelected, width, bits⟩ := @selectLoop_within
        N side comp₁ (s ++ [zero]) places elements below lo w (holds.extend [zero]) formed refers
        whole low (by omega) (by omega)
        (grown.room (by omega) fun own => by have enough := room own; omega)
      have counted := length_denote formedSelected
      refine ⟨zero :: selected, comp₂, ?_, ?_,
        List.forall_mem_cons.mpr ⟨formedZero, formedSelected⟩, ?_, fun i within => ?_⟩
      · rw [started, if_pos (by omega), looped, List.append_assoc]
        rfl
      · have both := grown.trans grown'
        rw [List.length_append] at both
        rw [totalWidth_cons]
        exact both
      · rw [totalWidth_cons]
        omega
      · rw [denote_cons, Bits.bit?_append]
        by_cases covered : i < (denote selected).length
        · rw [if_pos covered, if_pos (by omega), bits i (by omega)]
        · rw [if_neg covered, if_neg (by omega), bitsZero, Bits.bit?_word, if_pos (by omega)]
  · obtain ⟨selected, comp', looped, grown, formedSelected, width, bits⟩ := selectLoop_within holds
      formed refers whole low order (by omega) room
    refine ⟨selected, comp', ?_, grown, formedSelected, width, fun i within => ?_⟩
    · rw [select, pad, if_neg beyond]
      exact (if_pos (by omega)).trans looped
    · rw [if_pos (by omega), bits i within]

/-- The loop of `dup` adds copies of the elements. -/
theorem dupLoop_spec (holds : Holds s places elements) (formed : ∀ e ∈ elements, e.WellFormed)
    (room : Room side comp (totalWidth elements)) (wide : totalWidth elements < 2 ^ 31) :
    ∃ comp', dupLoop side places comp s = some (comp', s ++ elements) ∧
      Grown side comp comp' (List.range' s.length elements.length) (totalWidth elements) := by
  induction places generalizing elements comp s with
  | nil =>
      obtain rfl := Store.holds_nil.mp holds
      exact ⟨comp, by rw [List.append_nil]; rfl, .refl side comp⟩
  | cons place places ih =>
      obtain ⟨e, elements, rfl, here, holds⟩ := Store.holds_cons.mp holds
      have formed' : ∀ other ∈ elements, other.WellFormed := fun other member =>
        formed other (List.mem_cons_of_mem _ member)
      have order := (formed e List.mem_cons_self).order
      have nonneg := totalWidth_nonneg formed'
      rw [totalWidth_cons] at room wide ⊢
      obtain ⟨comp', added, grown⟩ := @add_fresh N side comp s e order (by omega) (fun own => by
        have enough := room own
        omega)
      obtain ⟨comp'', looped, grown'⟩ := ih (holds.extend [e]) formed' (grown.room (by omega) room)
        (by omega)
      have both := grown.trans grown'
      rw [List.length_append] at both
      refine ⟨comp'', ?_, both⟩
      change (s[place]?).bind (fun e => (add side (s ++ [e.dup]) comp s.length).bind _) = _
      rw [here, Option.bind_some]
      change (add side (s ++ [e]) comp s.length).bind _ = _
      rw [added, Option.bind_some]
      refine looped.trans ?_
      rw [List.append_assoc]
      rfl

variable {compMergable : NodeElement N → NodeElement N → Bool}

theorem join_nil (places : List Nat) : join compMergable places [] s = some (places, s) := by
  rw [join]
  · rw [List.append_nil]
  · exact fun _ _ _ _ impossible => nomatch impossible

theorem join_concat (init rest : List Nat) (back front : Nat) :
    join compMergable (init ++ [back]) (front :: rest) s =
      (s[back]?).bind fun e => (s[front]?).bind fun other =>
        if compMergable e other then
          (NodeElement.merge compMergable back front s).map fun s => (init ++ [back] ++ rest, s)
        else some (init ++ [back] ++ front :: rest, s) := by
  simp only [join, List.getLast?_concat, bind]

/-- Joined lists have the bits of both. -/
theorem join_spec (mergable : NodeElement.Mergable compMergable)
    (holds : Holds s places elements) (holds' : Holds s places' others)
    (apart : (places ++ places').Nodup) (formed : ∀ e ∈ elements, e.WellFormed)
    (formed' : ∀ e ∈ others, e.WellFormed)
    (wide : totalWidth elements + totalWidth others < 2 ^ 31) :
    ∃ joined s' values, join compMergable places places' s = some (joined, s') ∧
      joined.Sublist (places ++ places') ∧ Frame s s' places ∧ Holds s' joined values ∧
      (∀ e ∈ values, e.WellFormed) ∧
      totalWidth values = totalWidth elements + totalWidth others ∧
      denote values = denote elements ++ denote others := by
  have appended : ∀ e ∈ elements ++ others, e.WellFormed := fun e member =>
    (List.mem_append.mp member).elim (formed e) (formed' e)
  rcases List.eq_nil_or_concat places with rfl | ⟨init, back, rfl⟩
  · obtain rfl := Store.holds_nil.mp holds
    exact ⟨places', s, others, rfl, List.Sublist.refl _, fun _ _ => rfl, holds', formed', by simp,
      rfl⟩
  · rw [List.concat_eq_append] at holds apart ⊢
    cases places' with
    | nil =>
        obtain rfl := Store.holds_nil.mp holds'
        refine ⟨init ++ [back], s, elements, join_nil _, ?_, fun _ _ => rfl, holds, formed, by simp,
          by simp⟩
        rw [List.append_nil]
    | cons front rest =>
        obtain ⟨other, others, rfl, there, holds'⟩ := Store.holds_cons.mp holds'
        obtain ⟨first, second, rfl, initial, last⟩ := Store.holds_append.mp holds
        obtain ⟨e, nothing, rfl, here, ended⟩ := Store.holds_cons.mp last
        obtain rfl := Store.holds_nil.mp ended
        by_cases allowed : compMergable e other = true
        · have distinct : back ∉ init ∧ back ≠ front ∧ back ∉ rest := by
            simp only [List.append_assoc, List.nodup_append, List.cons_append, List.nil_append,
              List.nodup_cons, List.mem_cons, not_or] at apart
            refine ⟨fun member => ?_, apart.2.1.1.1, apart.2.1.1.2⟩
            exact apart.2.2 back member back (Or.inl rfl) rfl
          have nonneg := totalWidth_nonneg fun value member =>
            formed value (List.mem_append_left _ member)
          have nonneg' := totalWidth_nonneg fun value member =>
            formed' value (List.mem_cons_of_mem _ member)
          simp only [totalWidth_append, totalWidth_cons, totalWidth_nil] at wide
          obtain ⟨merged, found, formedMerged, width, bits⟩ := NodeElement.merge_spec mergable
            distinct.2.1 here there (formed e (by simp)) (formed' other List.mem_cons_self) allowed
            (by omega)
          refine ⟨init ++ [back] ++ rest, s.set back merged, first ++ [merged] ++ others, ?_, ?_,
            .set (by simp) merged, ?_, fun value member => ?_, ?_, ?_⟩
          · rw [join_concat, here, Option.bind_some, there, Option.bind_some, if_pos allowed, found]
            rfl
          · exact (List.sublist_cons_self front rest).append_left _
          · exact ((initial.set distinct.1 merged).append
              (.cons (Store.getElem?_written here merged) .nil)).append
                (holds'.set distinct.2.2 merged)
          · rcases List.mem_append.mp member with member | member
            · rcases List.mem_append.mp member with member | member
              · exact formed value (List.mem_append_left _ member)
              · rw [List.mem_singleton.mp member]
                exact formedMerged
            · exact formed' value (List.mem_cons_of_mem _ member)
          · simp only [totalWidth_append, totalWidth_cons, totalWidth_nil]
            omega
          · simp [bits]
        · refine ⟨init ++ [back] ++ front :: rest, s, first ++ [e] ++ other :: others, ?_,
            List.Sublist.refl _, .refl _ _, (initial.append last).append (.cons there holds'),
            appended, totalWidth_append _ _, denote_append _ _⟩
          rw [join_concat, here, Option.bind_some, there, Option.bind_some, if_neg allowed]

/-- Merging neighbours keeps the bits of a list. -/
theorem mergeList_spec (mergable : NodeElement.Mergable compMergable)
    (holds : Holds s places elements) (holds' : Holds s places' others)
    (apart : (places ++ places').Nodup) (formed : ∀ e ∈ elements, e.WellFormed)
    (formed' : ∀ e ∈ others, e.WellFormed)
    (wide : totalWidth elements + totalWidth others < 2 ^ 31) :
    ∃ merged s' values, mergeList compMergable places places' s = some (merged, s') ∧
      merged.Sublist (places ++ places') ∧ Frame s s' (places ++ places') ∧
      Holds s' merged values ∧ (∀ e ∈ values, e.WellFormed) ∧
      totalWidth values = totalWidth elements + totalWidth others ∧
      denote values = denote elements ++ denote others := by
  induction places' generalizing places elements others s with
  | nil =>
      obtain rfl := Store.holds_nil.mp holds'
      refine ⟨places, s, elements, rfl, ?_, .refl _ _, holds, formed, by simp, by simp⟩
      rw [List.append_nil]
  | cons place rest ih =>
      obtain ⟨e, others, rfl, here, holds'⟩ := Store.holds_cons.mp holds'
      have split : places ++ place :: rest = (places ++ [place]) ++ rest := by simp
      rw [split] at apart ⊢
      have formedRest : ∀ other ∈ others, other.WellFormed := fun other member =>
        formed' other (List.mem_cons_of_mem _ member)
      have nonneg := totalWidth_nonneg formedRest
      rw [totalWidth_cons] at wide
      obtain ⟨joined, s₁, values, found, within, frame, holds₁, formed₁, width, bits⟩ := join_spec
        mergable holds (.cons here .nil : Holds s [place] [e]) (List.nodup_append.mp apart).1 formed
        (by simpa using formed' e List.mem_cons_self)
        (by simp only [totalWidth_cons, totalWidth_nil]; omega)
      rw [totalWidth_cons, totalWidth_nil] at width
      have others₁ : Holds s₁ rest others := frame.holds holds' fun p member member' =>
        (List.nodup_append.mp apart).2.2 p (List.mem_append_left _ member) p member' rfl
      obtain ⟨merged, s₂, values', looped, within', frame', holds₂, formed₂, width', bits'⟩ := ih
        holds₁ others₁ (apart.sublist (within.append_right rest)) formed₁ formedRest (by omega)
      refine ⟨merged, s₂, values', ?_, within'.trans (within.append_right rest),
        (frame.mono ?_).trans (frame'.mono (within.append_right rest).subset), holds₂, formed₂,
        ?_, ?_⟩
      · change (join compMergable places [place] s).bind _ = _
        rw [found]
        exact looped
      · exact fun p member => List.mem_append_left _ (List.mem_append_left _ member)
      · rw [width', width, totalWidth_cons]
        omega
      · rw [bits', bits]
        simp

/-- The elements of a well-formed component. -/
theorem WellFormed.holds (formed : comp.WellFormed s) (side : Side) :
    Holds s (comp.list side) (comp.cells s side) ∧ ∀ e ∈ comp.cells s side, e.WellFormed := by
  refine ⟨Store.holds_contents fun place member => ?_, fun e member => ?_⟩
  · obtain ⟨e, here, -⟩ := formed.elements side place member
    exact ⟨e, here⟩
  · obtain ⟨place, listed, here⟩ := List.mem_filterMap.mp member
    obtain ⟨e', here', own⟩ := formed.elements side place listed
    obtain rfl := Option.some.inj (here.symm.trans here')
    exact own

/-- A component of well-formed elements that fill its width. -/
theorem wellFormed_of_holds (holds : Holds s comp.elements elements)
    (holds' : Holds s comp.directElements others) (formed : ∀ e ∈ elements, e.WellFormed)
    (formed' : ∀ e ∈ others, e.WellFormed) (width : (comp.width : Int) = totalWidth elements)
    (width' : (comp.width : Int) = totalWidth others) :
    comp.WellFormed s ∧ comp.cells s .elements = elements ∧
      comp.cells s .directElements = others := by
  have cells : comp.cells s .elements = elements := holds.contents
  have cells' : comp.cells s .directElements = others := holds'.contents
  refine ⟨⟨fun side place member => ?_, fun side => ?_⟩, cells, cells'⟩
  · cases side with
    | elements =>
        obtain ⟨e, listed, here⟩ := holds.get member
        exact ⟨e, here, formed e listed⟩
    | directElements =>
        obtain ⟨e, listed, here⟩ := holds'.get member
        exact ⟨e, here, formed' e listed⟩
  · cases side with
    | elements => rw [cells, width]
    | directElements => rw [cells', width']

/-- A component whose lists are grown from nothing, one after the other. -/
theorem grown_new {selected direct : List (NodeElement N)} {middle : NodeComponent}
    (first : Grown .elements new middle (List.range' s.length selected.length)
      (totalWidth selected))
    (second : Grown .directElements middle comp
      (List.range' (s ++ selected).length direct.length) (totalWidth direct))
    (formed : ∀ e ∈ selected, e.WellFormed) (formed' : ∀ e ∈ direct, e.WellFormed)
    (same : totalWidth direct = totalWidth selected) :
    comp.WellFormed (s ++ selected ++ direct) ∧
      (comp.width : Int) = totalWidth selected ∧
      comp.cells (s ++ selected ++ direct) .elements = selected ∧
      comp.cells (s ++ selected ++ direct) .directElements = direct := by
  have width : (comp.width : Int) = totalWidth selected := by
    rw [second.width, first.width, if_pos rfl, if_neg (by decide), Int.add_zero]
    exact Int.zero_add _
  have elements : comp.elements = List.range' s.length selected.length :=
    (second.other .elements (by decide)).trans first.own
  have directElements : comp.directElements =
      List.range' (s ++ selected).length direct.length := by
    refine second.own.trans ?_
    rw [first.other .directElements (by decide)]
    rfl
  obtain ⟨whole, cells⟩ := @wellFormed_of_holds N comp (s ++ selected ++ direct) selected direct
    (elements ▸ (Holds.fresh s selected).extend direct) (directElements ▸ Holds.fresh _ direct)
    formed formed' width (width.trans same.symm)
  exact ⟨whole, width, cells⟩

/-- Selecting bits: new elements with the bits from `hi` down to `lo`, and zeros above the
source. -/
theorem getbits_spec {hi lo : CInt} (formed : comp.WellFormed s)
    (refers : ∀ side, ∀ e ∈ comp.cells s side, e.Refers) (low : 0 ≤ (lo : Int))
    (order : (lo : Int) ≤ hi) (wide : (hi : Int) - lo + 1 < 2 ^ 31) :
    ∃ ret s', comp.getbits hi lo s = some (ret, s') ∧ s <+: s' ∧ ret.WellFormed s' ∧
      (ret.width : Int) = (hi : Int) - lo + 1 ∧
      ∀ side, ∀ i : Nat, (i : Int) < (hi : Int) - lo + 1 →
        bit? (denote (ret.cells s' side)) i =
          if (lo : Int) + i < comp.width then
            bit? (denote (comp.cells s side)) ((lo : Int).toNat + i)
          else some (.const false) := by
  obtain ⟨holds, own⟩ := formed.holds .elements
  obtain ⟨holds', own'⟩ := formed.holds .directElements
  obtain ⟨selected, middle, found, grown, formed₁, width₁, bits₁⟩ := select_spec holds own
    (refers .elements) (formed.width .elements) low order wide
    (show Room .elements new ((hi : Int) - lo + 1) from fun _ => by
      change (0 : Int) ≤ 0 ∧ (0 : Int) + _ < 2 ^ 31
      omega)
  obtain ⟨direct, ret, found', grown', formed₂, width₂, bits₂⟩ := select_spec
    (holds'.extend selected) own' (refers .directElements) (formed.width .directElements) low order
    wide (show Room .directElements middle _ from fun absurd' => by cases absurd')
  obtain ⟨whole, width, cells, cells'⟩ := grown_new grown grown' formed₁ formed₂
    (width₂.trans width₁.symm)
  refine ⟨ret, s ++ selected ++ direct, ?_, ?_, whole, width.trans width₁, fun side i below => ?_⟩
  · change (getElementBits new comp hi lo s).bind _ = _
    rw [show getElementBits new comp hi lo s = _ from found]
    exact found'
  · rw [List.append_assoc]
    exact List.prefix_append _ _
  · cases side with
    | elements => rw [cells]; exact bits₁ i below
    | directElements => rw [cells']; exact bits₂ i below

/-- Copying: new elements with the same bits. -/
theorem dup_spec (formed : comp.WellFormed s) :
    ∃ ret s', comp.dup s = some (ret, s') ∧ s <+: s' ∧ ret.WellFormed s' ∧
      ∀ side, denote (ret.cells s' side) = denote (comp.cells s side) := by
  obtain ⟨holds, own⟩ := formed.holds .elements
  obtain ⟨holds', own'⟩ := formed.holds .directElements
  have most := comp.width.high
  have width := formed.width .elements
  have width' := formed.width .directElements
  have nonneg := totalWidth_nonneg own
  obtain ⟨middle, found, grown⟩ := dupLoop_spec holds own
    (show Room .elements new _ from fun _ => by
      change (0 : Int) ≤ 0 ∧ (0 : Int) + _ < 2 ^ 31
      omega) (by omega)
  obtain ⟨ret, found', grown'⟩ := dupLoop_spec (holds'.extend (comp.cells s .elements)) own'
    (show Room .directElements middle _ from fun absurd' => by cases absurd') (by omega)
  obtain ⟨whole, -, cells, cells'⟩ := grown_new grown grown' own own' (width'.symm.trans width)
  refine ⟨ret, s ++ comp.cells s .elements ++ comp.cells s .directElements, ?_, ?_, whole,
    fun side => ?_⟩
  · change (dupLoop .elements comp.elements new s).bind _ = _
    rw [show dupLoop .elements comp.elements new s = _ from found]
    exact found'
  · rw [List.append_assoc]
    exact List.prefix_append _ _
  · cases side with
    | elements => rw [cells]
    | directElements => rw [cells']

/-- What it means for two components that no element stands in two places. -/
theorem places_apart {node : NodeComponent} (apart : (comp.places ++ node.places).Nodup) :
    (comp.elements ++ node.elements).Nodup ∧ (comp.directElements ++ node.directElements).Nodup ∧
      comp.elements.Disjoint comp.directElements ∧
      comp.elements.Disjoint node.directElements ∧
      comp.directElements.Disjoint (comp.elements ++ node.elements) := by
  simp only [places, List.append_assoc, List.nodup_append', List.disjoint_append_right] at apart ⊢
  obtain ⟨own, ⟨own', ⟨other, other', -⟩, across, beside'⟩, beside, between, across'⟩ := apart
  exact ⟨⟨own, other, between⟩, ⟨own', other', beside'⟩, beside, across', beside.symm, across⟩

/-- Merging components, none of whose elements stands in two places. -/
theorem merge_spec {node : NodeComponent} (mergable : NodeElement.Mergable compMergable)
    (formed : comp.WellFormed s) (formed' : node.WellFormed s)
    (apart : (comp.places ++ node.places).Nodup)
    (wide : (comp.width : Int) + node.width < 2 ^ 31) :
    ∃ ret s', comp.merge compMergable node s = some (ret, s') ∧ Frame s s' comp.places ∧
      ret.WellFormed s' ∧ ∀ side, denote (ret.cells s' side) =
        denote (comp.cells s side) ++ denote (node.cells s side) := by
  obtain ⟨holds, own⟩ := formed.holds .elements
  obtain ⟨holds', own'⟩ := formed.holds .directElements
  obtain ⟨there, other⟩ := formed'.holds .elements
  obtain ⟨there', other'⟩ := formed'.holds .directElements
  have width := formed.width .elements
  have width' := formed.width .directElements
  have more := formed'.width .elements
  have more' := formed'.width .directElements
  obtain ⟨first, second, clear, clear', clear''⟩ := places_apart apart
  obtain ⟨joined, s₁, values, found, within, frame, holds₁, formed₁, width₁, bits₁⟩ :=
    join_spec mergable holds there first own other (by omega)
  obtain ⟨joined', s₂, values', found', -, frame', holds₂, formed₂, width₂, bits₂⟩ :=
    join_spec mergable (frame.holds holds' clear) (frame.holds there' clear') second own' other'
      (by omega)
  obtain ⟨total, found'', same⟩ :=
    @CInt.exists_of (comp.width + node.width) (by
      have nonneg := totalWidth_nonneg own
      have nonneg' := totalWidth_nonneg other
      omega) wide
  obtain ⟨whole, cells, cells'⟩ := @wellFormed_of_holds N ⟨joined, joined', total⟩ s₂ values values'
    (frame'.holds holds₁ (List.disjoint_of_subset_right within.subset clear'')) holds₂ formed₁
    formed₂ (show (total : Int) = _ by omega) (show (total : Int) = _ by omega)
  refine ⟨_, s₂, ?_, (frame.mono (List.subset_append_left _ _)).trans
    (frame'.mono (List.subset_append_right _ _)), whole, fun side => ?_⟩
  · change (join compMergable comp.elements node.elements s).bind _ = _
    rw [show join compMergable comp.elements node.elements s = _ from found, Option.bind_some]
    change (join compMergable comp.directElements node.directElements s₁).bind _ = _
    rw [show join compMergable comp.directElements node.directElements s₁ = _ from found',
      Option.bind_some]
    change (CInt.of (comp.width + node.width)).bind _ = _
    rw [found'']
    rfl
  · cases side with
    | elements => rw [cells, bits₁]
    | directElements => rw [cells', bits₂]

/-- Merging neighbours of a component, none of whose elements stands in two places. -/
theorem mergeNeighbor_spec (mergable : NodeElement.Mergable compMergable)
    (formed : comp.WellFormed s) (apart : comp.places.Nodup) :
    ∃ ret s', comp.mergeNeighbor compMergable s = some (ret, s') ∧ Frame s s' comp.places ∧
      ret.WellFormed s' ∧ ∀ side, denote (ret.cells s' side) = denote (comp.cells s side) := by
  obtain ⟨holds, own⟩ := formed.holds .elements
  obtain ⟨holds', own'⟩ := formed.holds .directElements
  have most := comp.width.high
  have width := formed.width .elements
  have width' := formed.width .directElements
  obtain ⟨first, second, clear⟩ := List.nodup_append'.mp apart
  have zero : totalWidth ([] : List (NodeElement N)) = 0 := totalWidth_nil
  obtain ⟨merged, s₁, values, found, within, frame, holds₁, formed₁, width₁, bits₁⟩ :=
    mergeList_spec mergable (.nil : Holds s [] []) holds first (fun _ absurd' => by cases absurd')
      own (by omega)
  obtain ⟨merged', s₂, values', found', -, frame', holds₂, formed₂, width₂, bits₂⟩ :=
    mergeList_spec mergable (.nil : Holds s₁ [] []) (frame.holds holds' clear) second
      (fun _ absurd' => by cases absurd') own' (by omega)
  obtain ⟨whole, cells, cells'⟩ := @wellFormed_of_holds N ⟨merged, merged', comp.width⟩ s₂ values
    values' (frame'.holds holds₁ (List.disjoint_of_subset_right within.subset clear.symm)) holds₂
    formed₁ formed₂
    (show (comp.width : Int) = _ by omega) (show (comp.width : Int) = _ by omega)
  refine ⟨_, s₂, ?_, (frame.mono (List.subset_append_left _ _)).trans
    (frame'.mono (List.subset_append_right _ _)), whole, fun side => ?_⟩
  · change (mergeList compMergable [] comp.elements s).bind _ = _
    rw [show mergeList compMergable [] comp.elements s = _ from found, Option.bind_some]
    change (mergeList compMergable [] comp.directElements s₁).bind _ = _
    rw [show mergeList compMergable [] comp.directElements s₁ = _ from found']
    rfl
  · cases side with
    | elements => rw [cells, bits₁]; rfl
    | directElements => rw [cells', bits₂]; rfl

/-- **Components.** Selecting bits, merging, merging neighbours and copying respect the bits
that a component denotes and keep components well formed, as long as the numbers fit into
`int` and, where elements are merged, none of them stands in two places. -/
theorem operations_denote (mergable : NodeElement.Mergable compMergable) {src : NodeComponent}
    (formed : src.WellFormed s) :
    (∀ hi lo : CInt, (∀ side, ∀ e ∈ src.cells s side, e.Refers) → 0 ≤ (lo : Int) →
      (lo : Int) ≤ hi → (hi : Int) - lo + 1 < 2 ^ 31 →
      ∃ comp s', src.getbits hi lo s = some (comp, s') ∧ s <+: s' ∧ comp.WellFormed s' ∧
        (comp.width : Int) = (hi : Int) - lo + 1 ∧
        ∀ side, ∀ i : Nat, (i : Int) < (hi : Int) - lo + 1 →
          bit? (denote (comp.cells s' side)) i =
            if (lo : Int) + i < src.width then
              bit? (denote (src.cells s side)) ((lo : Int).toNat + i)
            else some (.const false)) ∧
    (∀ node : NodeComponent, node.WellFormed s → (src.places ++ node.places).Nodup →
      (src.width : Int) + node.width < 2 ^ 31 →
      ∃ comp s', src.merge compMergable node s = some (comp, s') ∧ Frame s s' src.places ∧
        comp.WellFormed s' ∧ ∀ side, denote (comp.cells s' side) =
          denote (src.cells s side) ++ denote (node.cells s side)) ∧
    (src.places.Nodup → ∃ comp s', src.mergeNeighbor compMergable s = some (comp, s') ∧
      Frame s s' src.places ∧ comp.WellFormed s' ∧
      ∀ side, denote (comp.cells s' side) = denote (src.cells s side)) ∧
    (∃ comp s', src.dup s = some (comp, s') ∧ s <+: s' ∧ comp.WellFormed s' ∧
      ∀ side, denote (comp.cells s' side) = denote (src.cells s side)) :=
  ⟨fun _ _ refers low order wide => getbits_spec formed refers low order wide,
    fun _ formed' apart wide => merge_spec mergable formed formed' apart wide,
    fun apart => mergeNeighbor_spec mergable formed apart, dup_spec formed⟩

/-- Neighbours that merge: constants, and adjoining ranges of one node. -/
def mergableSample (first second : NodeElement Nat) : Bool :=
  decide ((first.eleType = .ELE_INT ∧ second.eleType = .ELE_INT) ∨
    (first.eleType = .ELE_NODE ∧ second.eleType = .ELE_NODE ∧ first.node = second.node ∧
      (first.lo : Int) = second.hi + 1))

/-- A constant with the given top bit. -/
def constant (val : Nat) (hi : CInt) : NodeElement Nat := ⟨.ELE_INT, none, val, hi, 0, []⟩

/-- Two bits of a node. -/
def nodeBits : NodeElement Nat := ⟨.ELE_NODE, some 0, 0, ⟨4, by decide⟩, ⟨3, by decide⟩, []⟩

/-- Two bits of a node, the constant 5 and the constant 2, twice each. -/
def storeSample : Store (NodeElement Nat) :=
  [nodeBits, constant 5 ⟨2, by decide⟩, nodeBits, constant 5 ⟨2, by decide⟩,
    constant 2 ⟨1, by decide⟩, constant 2 ⟨1, by decide⟩]

/-- The bits of the node above the constant 5. -/
def componentSample : NodeComponent := ⟨[0, 1], [2, 3], ⟨5, by decide⟩⟩

/-- The constant 2. -/
def otherSample : NodeComponent := ⟨[4], [5], ⟨2, by decide⟩⟩

theorem constant_wellFormed {val : Nat} {hi : CInt} (nonneg : 0 ≤ (hi : Int))
    (small : val < 2 ^ ((hi : Int) + 1).toNat) : (constant val hi).WellFormed :=
  ⟨nonneg, fun _ => rfl, fun _ => small⟩

theorem nodeBits_wellFormed : nodeBits.WellFormed :=
  ⟨by decide, fun int => absurd int (by decide), fun int => absurd int (by decide)⟩

theorem componentSample_wellFormed : componentSample.WellFormed storeSample := by
  have five : (constant 5 ⟨2, by decide⟩).WellFormed := constant_wellFormed (by decide) (by decide)
  have formed : ∀ e ∈ [nodeBits, constant 5 ⟨2, by decide⟩], e.WellFormed := by
    simpa using ⟨nodeBits_wellFormed, five⟩
  have holds : Holds storeSample [0, 1] [nodeBits, constant 5 ⟨2, by decide⟩] :=
    .cons rfl (.cons rfl .nil)
  have holds' : Holds storeSample [2, 3] [nodeBits, constant 5 ⟨2, by decide⟩] :=
    .cons rfl (.cons rfl .nil)
  exact (wellFormed_of_holds holds holds' formed formed (by decide) (by decide)).1

theorem otherSample_wellFormed : otherSample.WellFormed storeSample := by
  have formed : ∀ e ∈ [constant 2 ⟨1, by decide⟩], e.WellFormed := by
    simpa using @constant_wellFormed 2 ⟨1, by decide⟩ (by decide) (by decide)
  have holds : Holds storeSample [4] [constant 2 ⟨1, by decide⟩] := .cons rfl .nil
  have holds' : Holds storeSample [5] [constant 2 ⟨1, by decide⟩] := .cons rfl .nil
  exact (wellFormed_of_holds holds holds' formed formed (by decide) (by decide)).1

/-- All operations on the sample: four bits of it, up to one above it, the sample before the
constant 2, the sample with its neighbours merged, and a copy of it. -/
theorem componentSample_operations :
    (∃ comp s',
      componentSample.getbits ⟨5, by decide⟩ ⟨2, by decide⟩ storeSample = some (comp, s') ∧
      comp.WellFormed s' ∧ (comp.width : Int) = 4 ∧ ∀ side, ∀ i : Nat, (i : Int) < 4 →
        bit? (denote (comp.cells s' side)) i = if (2 : Int) + i < 5 then
          bit? (denote (componentSample.cells storeSample side)) (2 + i)
          else some (.const false)) ∧
    (∃ comp s', componentSample.merge mergableSample otherSample storeSample = some (comp, s') ∧
      comp.WellFormed s' ∧ ∀ side, denote (comp.cells s' side) =
        [.node (some 0) 4, .node (some 0) 3, .const true, .const false, .const true, .const true,
          .const false]) ∧
    (∃ comp s', componentSample.mergeNeighbor mergableSample storeSample = some (comp, s') ∧
      comp.WellFormed s' ∧ ∀ side, denote (comp.cells s' side) =
        [.node (some 0) 4, .node (some 0) 3, .const true, .const false, .const true]) ∧
    (∃ comp s', componentSample.dup storeSample = some (comp, s') ∧ comp.WellFormed s' ∧
      ∀ side, denote (comp.cells s' side) =
        [.node (some 0) 4, .node (some 0) 3, .const true, .const false, .const true]) := by
  have own (side : Side) : componentSample.cells storeSample side =
      [nodeBits, constant 5 ⟨2, by decide⟩] := by
    cases side <;> rfl
  have other (side : Side) : otherSample.cells storeSample side = [constant 2 ⟨1, by decide⟩] := by
    cases side <;> rfl
  have refers (side : Side) : ∀ e ∈ componentSample.cells storeSample side, e.Refers := by
    rw [own]
    intro e member refer listed
    have none : e.referNodes = [] := by
      rcases List.mem_cons.mp member with rfl | member
      · rfl
      · rw [List.mem_singleton.mp member]
        rfl
    rw [none] at listed
    cases listed
  obtain ⟨getbits, merge, mergeNeighbor, dup⟩ := @operations_denote Nat storeSample mergableSample
    (fun _ _ => of_decide_eq_true) componentSample componentSample_wellFormed
  obtain ⟨four, s₁, found₁, -, formed₁, width₁, bits₁⟩ :=
    getbits ⟨5, by decide⟩ ⟨2, by decide⟩ refers (by decide) (by decide) (by decide)
  obtain ⟨both, s₂, found₂, -, formed₂, bits₂⟩ :=
    merge otherSample otherSample_wellFormed (by decide) (by decide)
  obtain ⟨merged, s₃, found₃, -, formed₃, bits₃⟩ := mergeNeighbor (by decide)
  obtain ⟨copy, s₄, found₄, -, formed₄, bits₄⟩ := dup
  refine ⟨⟨four, s₁, found₁, formed₁, width₁, bits₁⟩, ⟨both, s₂, found₂, formed₂, fun side => ?_⟩,
    ⟨merged, s₃, found₃, formed₃, fun side => ?_⟩, ⟨copy, s₄, found₄, formed₄, fun side => ?_⟩⟩
  · rw [bits₂, own, other]
    decide
  · rw [bits₃, own]
    decide
  · rw [bits₄, own]
    decide

/-- Two constants of one bit. -/
def twoOnes : Store (NodeElement Nat) := [constant 1 0, constant 1 0]

/-- A component with the bit 1. -/
def one : NodeComponent := ⟨[0], [1], ⟨1, by decide⟩⟩

theorem one_wellFormed : one.WellFormed twoOnes := by
  have formed : ∀ e ∈ [constant 1 0], e.WellFormed := by
    simpa using @constant_wellFormed 1 0 (by decide) (by decide)
  have holds : Holds twoOnes [0] [constant 1 0] := .cons rfl .nil
  have holds' : Holds twoOnes [1] [constant 1 0] := .cons rfl .nil
  exact (wellFormed_of_holds holds holds' formed formed (by decide) (by decide)).1

/-- A component that has taken over the elements of another one shares them. -/
example : new.merge mergableSample one twoOnes = some (one, twoOnes) := by
  rfl

/-- A bit of a node with a reference at the largest number. -/
def farStore : Store (NodeElement Nat) :=
  [⟨.ELE_NODE, some 0, 0, ⟨1, by decide⟩, 0, [⟨some 0, ⟨2147483647, by decide⟩,
    ⟨2147483647, by decide⟩, .OPL_BITS⟩]⟩]

/-- A component with this element in both lists. -/
def far : NodeComponent := ⟨[0], [0], ⟨2, by decide⟩⟩

theorem far_wellFormed : far.WellFormed farStore := by
  have formed : ∀ e ∈ farStore, e.WellFormed := by
    intro e member
    rw [List.mem_singleton.mp member]
    exact ⟨by decide, fun int => absurd int (by decide), fun int => absurd int (by decide)⟩
  have holds : Holds farStore [0] farStore := .cons rfl .nil
  exact (wellFormed_of_holds holds holds formed formed (by decide) (by decide)).1

/-- The conditions are needed: shared elements are merged with themselves, and the width of
a selection, or a bound computed for a reference, may overflow. -/
theorem operations_fail :
    (¬ ∀ (s : Store (NodeElement Nat)) (comp node : NodeComponent), comp.WellFormed s →
      node.WellFormed s → ∃ ret s', comp.merge mergableSample node s = some (ret, s') ∧
        ∀ side, denote (ret.cells s' side) =
          denote (comp.cells s side) ++ denote (node.cells s side)) ∧
    (¬ ∀ (s : Store (NodeElement Nat)) (comp : NodeComponent) (hi lo : CInt), comp.WellFormed s →
      0 ≤ (lo : Int) → (lo : Int) ≤ hi → ∃ ret s', comp.getbits hi lo s = some (ret, s') ∧
        (ret.width : Int) = (hi : Int) - lo + 1) ∧
    (¬ ∀ (s : Store (NodeElement Nat)) (comp : NodeComponent) (hi lo : CInt), comp.WellFormed s →
      0 ≤ (lo : Int) → (lo : Int) ≤ hi → (hi : Int) - lo + 1 < 2 ^ 31 →
      ∃ ret s', comp.getbits hi lo s = some (ret, s')) := by
  refine ⟨fun merges => ?_, fun selects => ?_, fun selects => ?_⟩
  · obtain ⟨ret, s', found, bits⟩ := merges twoOnes one one one_wellFormed one_wellFormed
    have result : (one.merge mergableSample one twoOnes).all (fun after => decide
        (denote (after.1.cells after.2 .elements) = [.const false, .const false])) = true := by
      decide +kernel
    rw [found] at result
    have wrong := of_decide_eq_true result
    rw [bits .elements] at wrong
    exact absurd wrong (by decide +kernel)
  · obtain ⟨ret, s', -, width⟩ := selects twoOnes one ⟨2147483647, by decide⟩ 0 one_wellFormed
      (by decide) (by decide)
    have most := ret.width.high
    rw [width] at most
    exact absurd most (by decide)
  · obtain ⟨ret, s', found⟩ := selects farStore far ⟨1, by decide⟩ 0 far_wellFormed (by decide)
      (by decide) (by decide)
    have none : (far.getbits ⟨1, by decide⟩ 0 farStore).isNone = true := by decide +kernel
    rw [found] at none
    cases none

end NodeComponent

end SplitNode
