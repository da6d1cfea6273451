import Mathlib.Data.List.Nodup
import Treescript.Proofs.InternalFaults

/-!
# Ordinals of enum elements

An enum type knows the ordinal of an element by its name and the name of an element by its ordinal.
Going from a name to its ordinal and back always works. The two agree in both directions exactly if
no element is listed twice: of an element that is, only the last ordinal is known.
-/

namespace Treescript

namespace EnumType

variable {t : EnumType} {e : String}

/-- Names and ordinals determine each other. -/
def Bijective (t : EnumType) : Prop :=
  ∀ (e : String) (k : Int), (t.ordinal? e).map Int.ofNat = some k ↔ t.elementName? k = some e

theorem elementName?_natCast (n : Nat) : t.elementName? n = t.elements[n]? := by
  rw [elementName?, if_neg (by omega), Int.toNat_natCast]

theorem elementName?_eq_some_iff {k : Int} :
    t.elementName? k = some e ↔ ∃ n : Nat, (n : Int) = k ∧ t.elements[n]? = some e := by
  constructor
  · intro h
    obtain ⟨hk, -⟩ := (t.isSome_elementName?_iff k).1 (h ▸ rfl)
    obtain ⟨n, rfl⟩ := Int.eq_ofNat_of_zero_le hk
    rw [elementName?_natCast] at h
    exact ⟨n, rfl, h⟩
  · rintro ⟨n, rfl, h⟩
    rw [elementName?_natCast, h]

theorem isSome_ordinal?_iff : (t.ordinal? e).isSome ↔ e ∈ t.elements := by
  rw [ordinal?, Option.isSome_map, List.findIdx?_isSome]
  simp

/-- Behind its ordinal an element is not listed again. -/
theorem getElem?_ne_of_ordinal?_lt {n j : Nat} (h : t.ordinal? e = some n) (hj : n < j) :
    t.elements[j]? ≠ some e := by
  intro heq
  obtain ⟨i, hi, rfl⟩ := Option.map_eq_some_iff.1 h
  obtain ⟨hlength, -, hbefore⟩ := List.findIdx?_eq_some_iff_getElem.1 hi
  obtain ⟨hlt, heq⟩ := List.getElem?_eq_some_iff.1 heq
  have hnot := hbefore (t.elements.length - 1 - j) (by omega)
  rw [List.getElem_reverse] at hnot
  simp only [show t.elements.length - 1 - (t.elements.length - 1 - j) = j by omega, heq] at hnot
  simp at hnot

theorem ordinal?_eq_some_iff {n : Nat} :
    t.ordinal? e = some n ↔ t.elements[n]? = some e ∧ ∀ j > n, t.elements[j]? ≠ some e := by
  constructor
  · exact fun h => ⟨t.getElem?_of_ordinal? h, fun j hj => getElem?_ne_of_ordinal?_lt h hj⟩
  · rintro ⟨hn, hlast⟩
    obtain ⟨n', hn'⟩ := Option.isSome_iff_exists.1 (isSome_ordinal?_iff.2 (List.mem_of_getElem? hn))
    obtain hlt | rfl | hlt := Nat.lt_trichotomy n n'
    · exact absurd (t.getElem?_of_ordinal? hn') (hlast n' hlt)
    · exact hn'
    · exact absurd hn (getElem?_ne_of_ordinal?_lt hn' hlt)

theorem elementName?_of_ordinal? {k : Int} (h : (t.ordinal? e).map Int.ofNat = some k) :
    t.elementName? k = some e := by
  obtain ⟨n, hn, rfl⟩ := Option.map_eq_some_iff.1 h
  exact elementName?_eq_some_iff.2 ⟨n, rfl, t.getElem?_of_ordinal? hn⟩

theorem bijective_iff_nodup : t.Bijective ↔ t.elements.Nodup := by
  constructor
  · intro h
    rw [List.nodup_iff_getElem?_ne_getElem?]
    intro i j hij hj heq
    -- both places would be the ordinal of the element
    have hname : t.elements[j]? = some t.elements[j] := List.getElem?_eq_getElem hj
    have hi := (h t.elements[j] i).2 (elementName?_eq_some_iff.2 ⟨i, rfl, heq.trans hname⟩)
    have hj := (h t.elements[j] j).2 (elementName?_eq_some_iff.2 ⟨j, rfl, hname⟩)
    have := Option.some.inj (hi.symm.trans hj)
    omega
  · intro hnodup e k
    refine ⟨elementName?_of_ordinal?, fun h => ?_⟩
    obtain ⟨n, rfl, hn⟩ := elementName?_eq_some_iff.1 h
    have hordinal : t.ordinal? e = some n := by
      refine ordinal?_eq_some_iff.2 ⟨hn, fun j hj heq => ?_⟩
      obtain ⟨hlt, -⟩ := List.getElem?_eq_some_iff.1 hn
      have := (List.getElem?_inj hlt hnodup).1 (hn.trans heq.symm)
      omega
    rw [hordinal]
    rfl

end EnumType

/-- Reading a property that a sample has no field for. -/
theorem Run.getProperty_sample_run {m : Machine} {t id : Nat} {key : Token}
    {fields : NameMap Value} {type : EnumType} (hfields : m.store.fields? id = some fields)
    (hnone : fields.get? key.text = none) (htype : m.store.enums[t]? = some type) :
    (Run.getProperty (.enum t) id key).run m =
      match key.literal.integer?.bind fun n => type.elementName? n.toInt with
      | some element => (.ok (.text element), m)
      | none =>
        match type.ordinal? key.text with
        | some ordinal => (.ok (.int (Int64.ofNat ordinal)), m)
        | none => (.error (.failure ⟨key, .undefinedProperty (.enum t) key.text, none⟩), m) := by
  rw [Run.getProperty, run_bind_eq, Run.run_store]
  simp only [hfields, Run.found]
  rw [run_bind_eq, Run.run_pure]
  simp only [hnone, htype]
  rw [run_bind_eq, Run.run_pure]
  dsimp only
  cases key.literal.integer?.bind fun n => type.elementName? n.toInt with
  | some element => rfl
  | none => cases type.ordinal? key.text <;> rfl

/-- A sample reads the ordinal of an element under its name, and the name under the ordinal. -/
theorem Run.getProperty_element {m : Machine} {t id : Nat} {fields : NameMap Value}
    {type : EnumType} {name number : Token} {n : Int64}
    (hfields : m.store.fields? id = some fields) (htype : m.store.enums[t]? = some type)
    (hname : name.literal.integer? = none) (hnumber : number.literal.integer? = some n)
    (hown : fields.get? name.text = none) (hown' : fields.get? number.text = none)
    (h : (type.ordinal? name.text).map Int.ofNat = some n.toInt) :
    (Run.getProperty (.enum t) id name).run m = (.ok (.int n), m) ∧
      (Run.getProperty (.enum t) id number).run m = (.ok (.text name.text), m) := by
  have helement := type.elementName?_of_ordinal? h
  obtain ⟨ordinal, hordinal, hn⟩ := Option.map_eq_some_iff.1 h
  have hvalue : Int64.ofNat ordinal = n := by
    rw [← Int64.ofInt_toInt n, ← hn]
    rfl
  rw [getProperty_sample_run hfields hown htype, getProperty_sample_run hfields hown' htype]
  simp [hname, hnumber, hordinal, hvalue, helement]

/-- What a declaration of an enum type leaves behind. -/
theorem Run.declareEnum_run (name : Token) (elements : List Token) {m : Machine}
    (h : m.current < m.store.scopes.size) :
    ∃ m', (Run.declareEnum name elements).run m = (.ok (), m') ∧
      m'.store.scopes.get? m.current name.text = some (.type (.enum m.store.enums.size)) ∧
      m'.store.enums[m.store.enums.size]? = some ⟨name.text, elements.map (·.text)⟩ := by
  have hsize : m.current < (m.store.scopes.define m.current name.text .none).size := by
    rwa [Scopes.size_define]
  exact ⟨_, rfl, Scopes.get?_define_self _ hsize _ _, Array.getElem?_push_size⟩

/-- Wherever a session declares an enum type, the type is bound to its name; its names and ordinals
determine each other exactly if no element is listed twice. In any case a name has an ordinal
exactly if it is an element, an ordinal has a name exactly if it is below the number of elements,
and an ordinal found under a name leads back to the name, also through a sample. -/
theorem Machine.Reached.enum_bijective_iff_nodup {m : Machine} (hm : m.Reached Program.Decoded)
    {p q : Program} (hp : p.Decoded) (hq : q.unnumbered = p.unnumbered) {fuel k : Nat}
    {calls : List Token} {token name : Token} {elements : List Token} {m₁ : Machine}
    (hx : Evaluation.Leads ⟨fuel, .program q, m⟩ calls
      ⟨k + 1, .stmt (.enum token name elements), m₁⟩) :
    ∃ (m₂ : Machine) (t : Nat) (type : EnumType),
      Evaluation.outcome ⟨k + 1, .stmt (.enum token name elements), m₁⟩ = (.ok .normal, m₂) ∧
      m₂.store.scopes.get? m₁.current name.text = some (.type (.enum t)) ∧
      m₂.store.enums[t]? = some type ∧ type.elements = elements.map (·.text) ∧
      (type.Bijective ↔ (elements.map (·.text)).Nodup) ∧
      (∀ e, (type.ordinal? e).isSome ↔ e ∈ elements.map (·.text)) ∧
      (∀ n : Int, (type.elementName? n).isSome ↔ 0 ≤ n ∧ n < elements.length) ∧
      ∀ (e : String) (n : Int), (type.ordinal? e).map Int.ofNat = some n →
        type.elementName? n = some e ∧
        ∀ (m₃ : Machine), m₂.store.Extends m₃.store →
          ∀ (id : Nat) (fields : NameMap Value) (byName byNumber : Token) (number : Int64),
            m₃.store.fields? id = some fields → fields.get? byName.text = none →
            fields.get? byNumber.text = none → byName.text = e → byName.literal.integer? = none →
            byNumber.literal.integer? = some number → number.toInt = n →
            (Run.getProperty (.enum t) id byName).run m₃ = (.ok (.int number), m₃) ∧
              (Run.getProperty (.enum t) id byNumber).run m₃ = (.ok (.text e), m₃) := by
  obtain ⟨hmachine, -⟩ := hm.sound_evaluation hp hq hx
  obtain ⟨m₂, hrun, hbound, htype⟩ := Run.declareEnum_run name elements hmachine.current_lt
  refine ⟨m₂, _, _, ?_, hbound, htype, rfl, EnumType.bijective_iff_nodup,
    fun e => EnumType.isSome_ordinal?_iff, fun n => ?_,
    fun e n h => ⟨EnumType.elementName?_of_ordinal? h, ?_⟩⟩
  · change ((Run.declareEnum name elements >>= fun _ => pure Completion.normal).run m₁) = _
    rw [run_bind_eq, hrun]
    rfl
  · rw [EnumType.isSome_elementName?_iff, List.length_map]
  · rintro m₃ hlater id fields byName byNumber number hfields hown hown' rfl hname hnumber rfl
    exact Run.getProperty_element hfields (hlater.enums _ _ htype) hname hnumber hown hown' h

/-- An enum type with an element that is listed twice. -/
def repeatedDocument : List Document :=
  [.mapping [("type", .text "Enum"), ("name", .text "E"),
    ("elements", .list [.text "A", .text "B", .text "A"])]]

def repeatedElements : List Token :=
  [⟨.identifier, "A", 1, .null⟩, ⟨.identifier, "B", 1, .null⟩, ⟨.identifier, "A", 1, .null⟩]

def repeatedEnum : Stmt :=
  .enum ⟨.keyword .enum, "enum", 1, .null⟩ ⟨.identifier, "E", 1, .null⟩ repeatedElements

theorem repeatedEnum_not_bijective :
    let m := Machine.start ⟨fun _ => 0, 0⟩ ([Module.text].flatMap Module.entries)
    Document.program repeatedDocument = .ok [repeatedEnum] ∧
    Program.resolve [repeatedEnum] = ⟨[repeatedEnum], []⟩ ∧
    ∃ (m' : Machine) (t : Nat) (type : EnumType),
      Evaluation.outcome ⟨1, .stmt repeatedEnum, m⟩ = (.ok .normal, m') ∧
      m'.store.scopes.get? m.current "E" = some (.type (.enum t)) ∧
      m'.store.enums[t]? = some type ∧ ¬ type.Bijective ∧
      type.ordinal? "A" = some 2 ∧ type.elementName? 0 = some "A" := by
  intro m
  have hm : m.Reached Program.Decoded := .start ⟨fun _ => 0, 0⟩ [.text]
  have hp : Document.program repeatedDocument = .ok [repeatedEnum] := by with_unfolding_all rfl
  have hleads : Evaluation.Leads ⟨1, .program [repeatedEnum], m⟩ [] ⟨1, .stmt repeatedEnum, m⟩ :=
    .part (.head _) (.here _)
  obtain ⟨m', t, type, hrun, hbound, htype, helements, hiff, -⟩ :=
    hm.enum_bijective_iff_nodup ⟨_, hp⟩ rfl hleads
  refine ⟨hp, rfl, m', t, type, hrun, hbound, htype, fun h => ?_, ?_, ?_⟩
  · exact absurd (hiff.1 h) (by decide)
  · rw [EnumType.ordinal?, helements]
    decide
  · rw [EnumType.elementName?, helements]
    decide

end Treescript
