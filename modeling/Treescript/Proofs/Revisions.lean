import Mathlib.Logic.Equiv.Defs
import Treescript.Proofs.Relabelling

/-!
# Revised programs

A program is revised by putting blocks around statements and by giving variables of local scopes new
names. The scopes around a node are then those of the original, under new names and with added
scopes between them, and a reference finds its scope past the added ones. `Frame` describes one
scope around a node, and a list of frames all of them, innermost first; beyond its end nothing has
changed. A `Licence` says which new names are allowed and whether blocks are.
-/

namespace Treescript

inductive Frame where
  /-- A scope of both programs: what is `x` in the original is `names x` in the revision. -/
  | shared (names : Equiv.Perm String)
  /-- A scope of the revision only. -/
  | added

namespace Frame

/-- The hops in the revision to the scope that is `hops` out in the original. -/
def shift : List Frame → Nat → Nat
  | [], hops => hops
  | added :: fs, hops => shift fs hops + 1
  | shared _ :: _, 0 => 0
  | shared _ :: fs, hops + 1 => shift fs hops + 1

/-- The new names of the variables in the scope that is `hops` out in the original. -/
def naming : List Frame → Nat → Equiv.Perm String
  | [], _ => Equiv.refl String
  | added :: fs, hops => naming fs hops
  | shared names :: _, 0 => names
  | shared _ :: fs, hops + 1 => naming fs hops

/-- Without a number of hops a reference is to a global variable, which keeps its name. -/
def namingOf (fs : List Frame) (hops : Option Nat) : Equiv.Perm String :=
  hops.elim (Equiv.refl String) (naming fs)

/-- The new names in the innermost scope, if the original has that scope. -/
def here? : List Frame → Option (Equiv.Perm String)
  | [] => some (Equiv.refl String)
  | shared names :: _ => some names
  | added :: _ => none

def label (fs : List Frame) : Label := fun x hops => (namingOf fs hops x, hops.map (shift fs))

/-- Names that are looked for from scope to scope are found as in the original. -/
structure Clear (fs : List Frame) : Prop where
  isSome_here? : (here? fs).isSome
  names : ∀ names, shared names ∈ fs → names = Equiv.refl String

def Plain (fs : List Frame) : Prop := ∀ f ∈ fs, f = shared (Equiv.refl String)

theorem naming_zero {fs : List Frame} {names : Equiv.Perm String} (h : here? fs = some names) :
    naming fs 0 = names := by
  match fs, h with
  | [], rfl => rfl
  | shared _ :: _, rfl => rfl

namespace Plain

variable {fs : List Frame}

theorem nil : Plain [] := List.forall_mem_nil _

theorem cons (h : Plain fs) : Plain (shared (Equiv.refl String) :: fs) :=
  List.forall_mem_cons.2 ⟨rfl, h⟩

theorem here?_eq (h : Plain fs) : here? fs = some (Equiv.refl String) := by
  match fs with
  | [] => rfl
  | f :: fs =>
    obtain rfl := (List.forall_mem_cons.1 h).1
    rfl

theorem shift_eq (h : Plain fs) (hops : Nat) : shift fs hops = hops := by
  induction fs generalizing hops with
  | nil => rfl
  | cons f fs ih =>
    obtain ⟨rfl, hfs⟩ := List.forall_mem_cons.1 h
    cases hops with
    | zero => rfl
    | succ hops => rw [shift, ih hfs]

theorem naming_eq (h : Plain fs) (hops : Nat) : naming fs hops = Equiv.refl String := by
  induction fs generalizing hops with
  | nil => rfl
  | cons f fs ih =>
    obtain ⟨rfl, hfs⟩ := List.forall_mem_cons.1 h
    cases hops with
    | zero => rfl
    | succ hops => rw [naming, ih hfs]

theorem label_eq (h : Plain fs) (x : String) (hops : Option Nat) : label fs x hops = (x, hops) := by
  cases hops with
  | none => rfl
  | some hops => simp [label, namingOf, h.naming_eq, h.shift_eq]

theorem clear (h : Plain fs) : Clear fs where
  isSome_here? := by
    rw [h.here?_eq]
    rfl
  names names hn := (shared.inj (h _ hn))

end Plain

end Frame

/-- What a revision may do. -/
structure Licence where
  renames : Equiv.Perm String → Prop
  /-- Names that the original does not use for what is renamed. -/
  fresh : String → Prop
  /-- How many times as much fuel the revision may take. A block of its own costs three times. -/
  slack : Nat
  renames_refl : renames (Equiv.refl String)
  self_eq : ∀ names, renames names → names selfName = selfName
  empty_eq : ∀ names, renames names → names "" = ""
  self_used : ¬fresh selfName
  apart : ∀ {names others x y}, renames names → renames others → ¬fresh x → ¬fresh y →
    names x = others y → x = y
  slack_pos : 0 < slack

namespace Frame

/-- All new names are allowed. -/
def Licensed (L : Licence) (fs : List Frame) : Prop := ∀ names, shared names ∈ fs → L.renames names

namespace Licensed

variable {L : Licence} {fs : List Frame}

theorem cons (h : Licensed L fs) {names : Equiv.Perm String} (hr : L.renames names) :
    Licensed L (shared names :: fs) := by
  intro others ho
  rcases List.mem_cons.1 ho with heq | ho
  · exact shared.inj heq ▸ hr
  · exact h others ho

theorem cons_added (h : Licensed L fs) : Licensed L (added :: fs) := by
  intro names hn
  rcases List.mem_cons.1 hn with heq | hn
  · cases heq
  · exact h names hn

theorem naming (h : Licensed L fs) (hops : Nat) : L.renames (Frame.naming fs hops) := by
  induction fs generalizing hops with
  | nil => exact L.renames_refl
  | cons f fs ih =>
    have htail := ih fun names hn => h names (List.mem_cons_of_mem _ hn)
    cases f with
    | added => exact htail hops
    | shared names =>
      cases hops with
      | zero => exact h names List.mem_cons_self
      | succ hops => exact htail hops

theorem namingOf (h : Licensed L fs) (hops : Option Nat) : L.renames (Frame.namingOf fs hops) := by
  cases hops with
  | none => exact L.renames_refl
  | some hops => exact h.naming hops

end Licensed

end Frame

section

variable (L : Licence)

/-- What is asked of one node of an expression, apart from its parts. -/
def Expr.Allows (fs : List Frame) : Expr → Prop
  | .variable name hops | .assign name _ hops | .count _ _ name hops =>
    L.fresh name.text → Frame.namingOf fs hops = Equiv.refl String
  | .parent _ => Frame.Clear fs
  | _ => True

def Expr.Revisable (fs : List Frame) (e : Expr) : Prop := ∀ part ∈ e.parts, part.Allows L fs

def Expr.revise (fs : List Frame) (e : Expr) : Expr := e.relabel (Frame.label fs)

def Definition.reviseInitial (fs : List Frame) (d : Definition) : Definition :=
  d.relabelInitial (Frame.label fs)

mutual

/-- The second statement is a revision of the first, with no block of its own around it. -/
inductive Stmt.Alters : List Frame → Stmt → Stmt → Prop
  | hole {fs : List Frame} : Stmt.Alters fs .hole .hole
  | expression {fs : List Frame} {token : Token} {value : Expr} : value.Revisable L fs →
      Stmt.Alters fs (.expression token value) (.expression token (value.revise fs))
  | print {fs : List Frame} {token : Token} {value : Expr} : value.Revisable L fs →
      Stmt.Alters fs (.print token value) (.print token (value.revise fs))
  | define {fs : List Frame} {token name : Token} {initial : Option Expr}
      {names : Equiv.Perm String} : Frame.here? fs = some names →
      (∀ e ∈ initial, e.Revisable L fs) →
      Stmt.Alters fs (.define ⟨token, name, initial⟩)
        (.define ⟨token, name.renamed names, initial.map (·.revise fs)⟩)
  | block {fs : List Frame} {token : Token} {body body' : List Stmt} {names : Equiv.Perm String} :
      L.renames names → Stmt.RevisesList (.shared names :: fs) body body' →
      Stmt.Alters fs (.block token body) (.block token body')
  | operation {fs : List Frame} {o o' : Operation} {names : Equiv.Perm String} :
      Frame.here? fs = some names → names o.name.text = o.name.text →
      Operation.Revises fs o o' → Stmt.Alters fs (.operation o) (.operation o')
  | conditional {fs : List Frame} {token : Token} {condition : Expr} {branch branch' : Stmt}
      {arms arms' : List Arm} : condition.Revisable L fs → Stmt.Revises fs branch branch' →
      Arm.RevisesList fs arms arms' →
      Stmt.Alters fs (.conditional token condition branch arms none)
        (.conditional token (condition.revise fs) branch' arms' none)
  | otherwise {fs : List Frame} {token : Token} {condition : Expr}
      {branch branch' last last' : Stmt} {arms arms' : List Arm} : condition.Revisable L fs →
      Stmt.Revises fs branch branch' → Arm.RevisesList fs arms arms' →
      Stmt.Revises fs last last' →
      Stmt.Alters fs (.conditional token condition branch arms (some last))
        (.conditional token (condition.revise fs) branch' arms' (some last'))
  | arm {fs : List Frame} {a a' : Arm} : Arm.Revises fs a a' → Stmt.Alters fs (.arm a) (.arm a')
  | loop {fs : List Frame} {token : Token} {condition : Expr} {body body' : Stmt} :
      condition.Revisable L fs → Stmt.Revises fs body body' →
      Stmt.Alters fs (.loop token condition body) (.loop token (condition.revise fs) body')
  | return {fs : List Frame} {keyword : Token} {value : Option Expr} :
      (∀ e ∈ value, e.Revisable L fs) →
      Stmt.Alters fs (.return keyword value) (.return keyword (value.map (·.revise fs)))
  | object {fs : List Frame} {token name : Token} {methods methods' : List Operation}
      {names : Equiv.Perm String} : Frame.here? fs = some names → names name.text = name.text →
      Operation.RevisesList (.shared (Equiv.refl String) :: fs) methods methods' →
      Stmt.Alters fs (.object token name methods) (.object token name methods')
  | enum {fs : List Frame} {token name : Token} {elements : List Token}
      {names : Equiv.Perm String} : Frame.here? fs = some names → names name.text = name.text →
      Stmt.Alters fs (.enum token name elements) (.enum token name elements)
  | form {fs : List Frame} {token name : Token} {members : List Definition}
      {names : Equiv.Perm String} : Frame.here? fs = some names → names name.text = name.text →
      (∀ d ∈ members, names d.name.text = d.name.text ∧ ∀ e ∈ d.initial, e.Revisable L fs) →
      Stmt.Alters fs (.form token name members)
        (.form token name (members.map (·.reviseInitial fs)))

/-- The second statement is a revision of the first, perhaps with a block of its own around it. -/
inductive Stmt.Revises : List Frame → Stmt → Stmt → Prop
  | plain {fs : List Frame} {s s' : Stmt} : Stmt.Alters fs s s' → Stmt.Revises fs s s'
  | wrapped {fs : List Frame} {token : Token} {s s' : Stmt} : 3 ≤ L.slack → s ≠ .hole →
      s.declares = [] → Stmt.Alters (.added :: fs) s s' → Stmt.Revises fs s (.block token [s'])

inductive Stmt.RevisesList : List Frame → List Stmt → List Stmt → Prop
  | nil {fs : List Frame} : Stmt.RevisesList fs [] []
  | cons {fs : List Frame} {s s' : Stmt} {ss ss' : List Stmt} : Stmt.Revises fs s s' →
      Stmt.RevisesList fs ss ss' → Stmt.RevisesList fs (s :: ss) (s' :: ss')

/-- The parameters and the body of an operation share a scope, so they share its new names. -/
inductive Operation.Revises : List Frame → Operation → Operation → Prop
  | mk {fs : List Frame} {token name : Token} {params : List Token} {body body' : List Stmt}
      {names : Equiv.Perm String} : L.renames names →
      Stmt.RevisesList (.shared names :: fs) body body' →
      Operation.Revises fs ⟨token, name, params, body⟩
        ⟨token, name, params.map (·.renamed names), body'⟩

inductive Operation.RevisesList : List Frame → List Operation → List Operation → Prop
  | nil {fs : List Frame} : Operation.RevisesList fs [] []
  | cons {fs : List Frame} {o o' : Operation} {os os' : List Operation} :
      Operation.Revises fs o o' → Operation.RevisesList fs os os' →
      Operation.RevisesList fs (o :: os) (o' :: os')

inductive Arm.Revises : List Frame → Arm → Arm → Prop
  | mk {fs : List Frame} {token : Token} {condition : Expr} {branch branch' : Stmt} :
      condition.Revisable L fs → Stmt.Revises fs branch branch' →
      Arm.Revises fs ⟨token, condition, branch⟩ ⟨token, condition.revise fs, branch'⟩

inductive Arm.RevisesList : List Frame → List Arm → List Arm → Prop
  | nil {fs : List Frame} : Arm.RevisesList fs [] []
  | cons {fs : List Frame} {a a' : Arm} {as as' : List Arm} : Arm.Revises fs a a' →
      Arm.RevisesList fs as as' → Arm.RevisesList fs (a :: as) (a' :: as')

end

end

variable {L : Licence} {fs : List Frame}

theorem Operation.Revises.name_eq {o o' : Operation}
    (h : o.Revises L fs o') : o'.name = o.name := by
  cases h
  rfl

theorem Operation.Revises.arity_eq {o o' : Operation}
    (h : o.Revises L fs o') : o'.params.length = o.params.length := by
  cases h
  exact List.length_map _

/-- The name and the hops of a reference. -/
def Expr.reference? : Expr → Option (String × Option Nat)
  | .variable name hops | .assign name _ hops | .count _ _ name hops => some (name.text, hops)
  | .self _ hops => some (selfName, hops)
  | _ => none

mutual

theorem Expr.relabel_congr {f g : Label} (e : Expr)
    (h : ∀ part ∈ e.parts, ∀ x hops, part.reference? = some (x, hops) → f x hops = g x hops) :
    e.relabel f = e.relabel g := by
  match e with
  | .hole | .literal .. | .parent .. | .global .. => rfl
  | .variable name hops =>
    have he := h _ (List.mem_singleton_self _) _ _ rfl
    simp only [Expr.relabel, Token.renamed, he]
  | .self keyword hops =>
    have he := h _ (List.mem_singleton_self _) _ _ rfl
    simp only [Expr.relabel, he]
  | .assign name value hops | .count _ value name hops =>
    simp only [Expr.parts, List.forall_mem_cons] at h
    simp only [Expr.relabel, Token.renamed, h.1 _ _ rfl, Expr.relabel_congr value h.2]
  | .unary _ value | .group _ value | .get value _ =>
    simp only [Expr.parts, List.forall_mem_cons] at h
    simp only [Expr.relabel, Expr.relabel_congr value h.2]
  | .binary left _ right | .logical left _ right =>
    simp only [Expr.parts, List.forall_mem_cons, List.forall_mem_append] at h
    simp only [Expr.relabel, Expr.relabel_congr left h.2.1, Expr.relabel_congr right h.2.2]
  | .set object _ value =>
    simp only [Expr.parts, List.forall_mem_cons, List.forall_mem_append] at h
    simp only [Expr.relabel, Expr.relabel_congr value h.2.1, Expr.relabel_congr object h.2.2]
  | .call callee _ args =>
    simp only [Expr.parts, List.forall_mem_cons, List.forall_mem_append] at h
    simp only [Expr.relabel, Expr.relabel_congr callee h.2.1, Expr.relabelList_congr args h.2.2]

theorem Expr.relabelList_congr {f g : Label} (es : List Expr)
    (h : ∀ part ∈ Expr.partsOfList es, ∀ x hops, part.reference? = some (x, hops) →
      f x hops = g x hops) : Expr.relabelList f es = Expr.relabelList g es := by
  match es with
  | [] => rfl
  | e :: es =>
    simp only [Expr.partsOfList, List.forall_mem_append] at h
    simp only [Expr.relabelList, Expr.relabel_congr e h.1, Expr.relabelList_congr es h.2]

theorem Expr.relabel_id (e : Expr) : e.relabel (fun x hops => (x, hops)) = e := by
  match e with
  | .hole | .literal .. | .parent .. | .global .. | .variable .. | .self .. => rfl
  | .assign _ value _ | .count _ value _ _ | .unary _ value | .group _ value | .get value _ =>
    simp only [Expr.relabel, Token.renamed, Expr.relabel_id value]
  | .binary left _ right | .logical left _ right | .set left _ right =>
    simp only [Expr.relabel, Expr.relabel_id left, Expr.relabel_id right]
  | .call callee _ args =>
    simp only [Expr.relabel, Expr.relabel_id callee, Expr.relabelList_id args]

theorem Expr.relabelList_id (es : List Expr) :
    Expr.relabelList (fun x hops => (x, hops)) es = es := by
  match es with
  | [] => rfl
  | e :: es => simp only [Expr.relabelList, Expr.relabel_id e, Expr.relabelList_id es]

end

namespace Frame.Plain

theorem revise_eq (h : Plain fs) (e : Expr) : e.revise fs = e := by
  rw [Expr.revise, show label fs = fun x hops => (x, hops) from
    funext fun x => funext fun hops => h.label_eq x hops]
  exact e.relabel_id

theorem map_revise_eq (h : Plain fs) (e? : Option Expr) : e?.map (·.revise fs) = e? := by
  cases e? with
  | none => rfl
  | some e => rw [Option.map_some, h.revise_eq]

theorem reviseInitial_eq (h : Plain fs) (d : Definition) : d.reviseInitial fs = d :=
  congrArg (Definition.mk d.token d.name) (h.map_revise_eq d.initial)

theorem revisable (h : Plain fs) (e : Expr) : e.Revisable L fs := by
  intro part _
  cases part with
  | parent => exact h.clear
  | «variable» name hops | assign name _ hops | count _ _ name hops =>
    intro _
    cases hops with
    | none => rfl
    | some hops => exact h.naming_eq hops
  | _ => trivial

end Frame.Plain

-- Each list, operation and arm is its own revision for the same reason, so the proofs are mutual.
mutual

theorem Stmt.alters_refl {fs : List Frame} (h : Frame.Plain fs) (s : Stmt) : s.Alters L fs s := by
  have hhere := h.here?_eq
  match s with
  | .hole => exact .hole
  | .expression token value =>
    have he : Stmt.Alters L fs (.expression token value) (.expression token (value.revise fs)) :=
      .expression (h.revisable value)
    rwa [h.revise_eq] at he
  | .print token value =>
    have he : Stmt.Alters L fs (.print token value) (.print token (value.revise fs)) :=
      .print (h.revisable value)
    rwa [h.revise_eq] at he
  | .define ⟨token, name, initial⟩ =>
    have he : Stmt.Alters L fs (.define ⟨token, name, initial⟩)
        (.define ⟨token, name.renamed (Equiv.refl String), initial.map (·.revise fs)⟩) :=
      .define hhere fun e _ => h.revisable e
    rwa [h.map_revise_eq] at he
  | .block token body => exact .block L.renames_refl (Stmt.revisesList_refl h.cons body)
  | .operation o => exact .operation hhere rfl (Operation.revises_refl h o)
  | .conditional token condition branch arms none =>
    have he : Stmt.Alters L fs (.conditional token condition branch arms none)
        (.conditional token (condition.revise fs) branch arms none) :=
      .conditional (h.revisable condition) (.plain (Stmt.alters_refl h branch))
        (Arm.revisesList_refl h arms)
    rwa [h.revise_eq] at he
  | .conditional token condition branch arms (some last) =>
    have he : Stmt.Alters L fs (.conditional token condition branch arms (some last))
        (.conditional token (condition.revise fs) branch arms (some last)) :=
      .otherwise (h.revisable condition) (.plain (Stmt.alters_refl h branch))
        (Arm.revisesList_refl h arms) (.plain (Stmt.alters_refl h last))
    rwa [h.revise_eq] at he
  | .arm a => exact .arm (Arm.revises_refl h a)
  | .loop token condition body =>
    have he : Stmt.Alters L fs (.loop token condition body)
        (.loop token (condition.revise fs) body) :=
      .loop (h.revisable condition) (.plain (Stmt.alters_refl h body))
    rwa [h.revise_eq] at he
  | .return keyword value =>
    have he : Stmt.Alters L fs (.return keyword value)
        (.return keyword (value.map (·.revise fs))) := .return fun e _ => h.revisable e
    rwa [h.map_revise_eq] at he
  | .object token name methods =>
    exact .object hhere rfl (Operation.revisesList_refl h.cons methods)
  | .enum token name elements => exact .enum hhere rfl
  | .form token name members =>
    have he : Stmt.Alters L fs (.form token name members)
        (.form token name (members.map (·.reviseInitial fs))) :=
      .form hhere rfl fun d _ => ⟨rfl, fun e _ => h.revisable e⟩
    rwa [List.map_id'' h.reviseInitial_eq] at he

theorem Stmt.revisesList_refl {fs : List Frame} (h : Frame.Plain fs) (ss : List Stmt) :
    Stmt.RevisesList L fs ss ss := by
  match ss with
  | [] => exact .nil
  | s :: ss => exact .cons (.plain (Stmt.alters_refl h s)) (Stmt.revisesList_refl h ss)

theorem Operation.revises_refl {fs : List Frame} (h : Frame.Plain fs) (o : Operation) :
    o.Revises L fs o := by
  match o with
  | ⟨token, name, params, body⟩ =>
    have ho : Operation.Revises L fs ⟨token, name, params, body⟩
        ⟨token, name, params.map (·.renamed (Equiv.refl String)), body⟩ :=
      .mk L.renames_refl (Stmt.revisesList_refl h.cons body)
    rwa [List.map_id'' (Token.renamed_eq_self Equiv.refl_apply)] at ho

theorem Operation.revisesList_refl {fs : List Frame} (h : Frame.Plain fs) (os : List Operation) :
    Operation.RevisesList L fs os os := by
  match os with
  | [] => exact .nil
  | o :: os => exact .cons (Operation.revises_refl h o) (Operation.revisesList_refl h os)

theorem Arm.revises_refl {fs : List Frame} (h : Frame.Plain fs) (a : Arm) : a.Revises L fs a := by
  match a with
  | ⟨token, condition, branch⟩ =>
    have ha : Arm.Revises L fs ⟨token, condition, branch⟩ ⟨token, condition.revise fs, branch⟩ :=
      .mk (h.revisable condition) (.plain (Stmt.alters_refl h branch))
    rwa [h.revise_eq] at ha

theorem Arm.revisesList_refl {fs : List Frame} (h : Frame.Plain fs) (as : List Arm) :
    Arm.RevisesList L fs as as := by
  match as with
  | [] => exact .nil
  | a :: rest => exact .cons (Arm.revises_refl h a) (Arm.revisesList_refl h rest)

end

mutual

/-- The variables among the names that a statement declares in the scope it stands in. -/
def Stmt.variables : Stmt → List String
  | .define d => [d.name.text]
  | .conditional _ _ branch arms none => branch.variables ++ Arm.variablesOfList arms
  | .conditional _ _ branch arms (some otherwise) =>
    branch.variables ++ Arm.variablesOfList arms ++ otherwise.variables
  | .arm a => a.variables
  | .loop _ _ body => body.variables
  | .hole | .expression .. | .print .. | .block .. | .return .. | .operation .. | .object ..
  | .enum .. | .form .. => []

def Arm.variables : Arm → List String
  | ⟨_, _, branch⟩ => branch.variables

def Arm.variablesOfList : List Arm → List String
  | [] => []
  | a :: rest => a.variables ++ Arm.variablesOfList rest

end

mutual

/-- The names that a statement declares in the scope it stands in for anything but a variable. -/
def Stmt.fixtures : Stmt → List String
  | .operation o => [o.name.text]
  | .object _ name _ => [name.text]
  | .enum _ name _ => [name.text]
  | .form _ name members => name.text :: members.map (·.name.text)
  | .conditional _ _ branch arms none => branch.fixtures ++ Arm.fixturesOfList arms
  | .conditional _ _ branch arms (some otherwise) =>
    branch.fixtures ++ Arm.fixturesOfList arms ++ otherwise.fixtures
  | .arm a => a.fixtures
  | .loop _ _ body => body.fixtures
  | .hole | .expression .. | .print .. | .block .. | .return .. | .define .. => []

def Arm.fixtures : Arm → List String
  | ⟨_, _, branch⟩ => branch.fixtures

def Arm.fixturesOfList : List Arm → List String
  | [] => []
  | a :: rest => a.fixtures ++ Arm.fixturesOfList rest

end

def Stmt.variablesOfList (ss : List Stmt) : List String := ss.flatMap Stmt.variables

def Stmt.fixturesOfList (ss : List Stmt) : List String := ss.flatMap Stmt.fixtures

mutual

theorem Stmt.count_declares (x : String) (s : Stmt) :
    s.declares.count x = s.variables.count x + s.fixtures.count x := by
  match s with
  | .hole | .expression .. | .print .. | .block .. | .return .. | .define .. | .operation ..
  | .object .. | .enum .. | .form .. =>
    simp only [Stmt.declares, Stmt.variables, Stmt.fixtures, List.count_nil, Nat.zero_add,
      Nat.add_zero]
  | .conditional _ _ branch arms none =>
    simp only [Stmt.declares, Stmt.variables, Stmt.fixtures, List.count_append,
      Stmt.count_declares x branch, Arm.count_declaresList x arms]
    omega
  | .conditional _ _ branch arms (some otherwise) =>
    simp only [Stmt.declares, Stmt.variables, Stmt.fixtures, List.count_append,
      Stmt.count_declares x branch, Arm.count_declaresList x arms,
      Stmt.count_declares x otherwise]
    omega
  | .arm a => simp only [Stmt.declares, Stmt.variables, Stmt.fixtures, Arm.count_declares x a]
  | .loop _ _ body =>
    simp only [Stmt.declares, Stmt.variables, Stmt.fixtures, Stmt.count_declares x body]

theorem Arm.count_declares (x : String) (a : Arm) :
    a.declares.count x = a.variables.count x + a.fixtures.count x := by
  match a with
  | ⟨_, _, branch⟩ =>
    simp only [Arm.declares, Arm.variables, Arm.fixtures, Stmt.count_declares x branch]

theorem Arm.count_declaresList (x : String) (as : List Arm) :
    (Arm.declaresList as).count x =
      (Arm.variablesOfList as).count x + (Arm.fixturesOfList as).count x := by
  match as with
  | [] => rfl
  | a :: rest =>
    simp only [Arm.declaresList, Arm.variablesOfList, Arm.fixturesOfList, List.count_append,
      Arm.count_declares x a, Arm.count_declaresList x rest]
    omega

end

theorem Stmt.count_declaresList (x : String) (ss : List Stmt) :
    (Stmt.declaresList ss).count x =
      (Stmt.variablesOfList ss).count x + (Stmt.fixturesOfList ss).count x := by
  induction ss with
  | nil => rfl
  | cons s ss ih =>
    simp only [Stmt.variablesOfList, Stmt.fixturesOfList, List.flatMap_cons,
      List.count_append] at ih ⊢
    rw [Stmt.declaresList, List.count_append, ih, Stmt.count_declares]
    omega

/-- The frames around what is inside `depth` scopes that have not changed. -/
def Frame.inside (fs : List Frame) (depth : Nat) : List Frame :=
  List.replicate depth (shared (Equiv.refl String)) ++ fs

theorem Frame.inside_succ (fs : List Frame) (depth : Nat) :
    Frame.inside fs (depth + 1) = shared (Equiv.refl String) :: Frame.inside fs depth := rfl

section

variable (L) (fs) (R : Relabelling)

/-- At a reference the relabelling does what the frames ask for. -/
def Visit.Matches (v : Visit) : Prop :=
  ∀ e, v.item = .node (.expr e) →
    e.Allows L (Frame.inside fs v.place.layers.length) ∧
    ∀ x hops, e.reference? = some (x, hops) →
      R.references v.place.layers.length x hops =
        Frame.label (Frame.inside fs v.place.layers.length) x hops

/-- At a declaration the relabelling does what the frames ask for. -/
structure Relabelling.Suits (depth : Nat) (locals fixtures : List String) : Prop where
  locals : ∀ x ∈ locals, ∃ names, Frame.here? (Frame.inside fs depth) = some names ∧
    R.locals depth x = names x
  fixtures : ∀ x ∈ fixtures, ∃ names, Frame.here? (Frame.inside fs depth) = some names ∧
    names x = x

/-- Only variables of the outermost scope get new names. -/
def Relabelling.KeepsInner : Prop := ∀ depth x, R.locals (depth + 1) x = x

end

variable {R : Relabelling}

namespace Relabelling.Suits

variable {depth : Nat} {xs ys xs' ys' : List String}

theorem of_append (h : R.Suits fs depth (xs ++ xs') (ys ++ ys')) :
    R.Suits fs depth xs ys ∧ R.Suits fs depth xs' ys' :=
  ⟨⟨(List.forall_mem_append.1 h.locals).1, (List.forall_mem_append.1 h.fixtures).1⟩,
    ⟨(List.forall_mem_append.1 h.locals).2, (List.forall_mem_append.1 h.fixtures).2⟩⟩

/-- Scopes that have not changed keep their names. -/
theorem succ (hR : R.KeepsInner) (depth : Nat) (xs ys : List String) :
    R.Suits fs (depth + 1) xs ys :=
  ⟨fun x _ => ⟨_, rfl, hR depth x⟩, fun _ _ => ⟨_, rfl, rfl⟩⟩

end Relabelling.Suits

namespace Place

@[simp] theorem length_layers_after (P : Place) (names : List String) :
    (P.after names).layers.length = P.layers.length := by
  have h := congrArg List.length (P.regions_after names)
  rwa [regions, regions, List.length_map, List.length_map] at h

@[simp] theorem length_layers_child (P : Place) (i : Nat) :
    (P.child i).layers.length = P.layers.length := rfl

@[simp] theorem length_layers_operation (P : Place) (o : Operation) :
    (P.operation o).layers.length = P.layers.length + 1 := rfl

@[simp] theorem length_layers_object (P : Place) :
    P.object.layers.length = P.layers.length + 1 := rfl

@[simp] theorem length_layers_initializer (P : Place) (x : String) :
    (P.initializer x).layers.length = P.layers.length := P.length_layers_after [x]

end Place

theorem Expr.revisable_of_matches {P : Place} {e : Expr}
    (h : ∀ v ∈ e.visits P, v.Matches L fs R) :
    e.Revisable L (Frame.inside fs P.layers.length) ∧
      e.relabel (R.references P.layers.length) = e.revise (Frame.inside fs P.layers.length) := by
  have hpart : ∀ part ∈ e.parts, Visit.Matches L fs R ⟨.node (.expr part), P⟩ :=
    fun part hp => h _ (List.mem_map.2 ⟨part, hp, rfl⟩)
  exact ⟨fun part hp => (hpart part hp part rfl).1,
    Expr.relabel_congr e fun part hp => (hpart part hp part rfl).2⟩

theorem Expr.revisable_of_matchesOptional {P : Place} {e? : Option Expr}
    (h : ∀ v ∈ Expr.visitsOptional P e?, v.Matches L fs R) :
    (∀ e ∈ e?, e.Revisable L (Frame.inside fs P.layers.length)) ∧
      e?.map (·.relabel (R.references P.layers.length)) =
        e?.map (·.revise (Frame.inside fs P.layers.length)) := by
  cases e? with
  | none => exact ⟨nofun, rfl⟩
  | some e =>
    obtain ⟨hrev, heq⟩ := Expr.revisable_of_matches (e := e) h
    refine ⟨?_, congrArg some heq⟩
    rintro _ ⟨⟩
    exact hrev

theorem Definition.revisable_of_matches {P : Place} {ds : List Definition}
    (h : ∀ v ∈ Definition.visitsOfMembers P ds, v.Matches L fs R) :
    (∀ d ∈ ds, ∀ e ∈ d.initial, e.Revisable L (Frame.inside fs P.layers.length)) ∧
      ds.map (·.relabelInitial (R.references P.layers.length)) =
        ds.map (·.reviseInitial (Frame.inside fs P.layers.length)) := by
  induction ds generalizing P with
  | nil => exact ⟨List.forall_mem_nil _, rfl⟩
  | cons d ds ih =>
    simp only [Definition.visitsOfMembers, List.cons_append, List.forall_mem_cons,
      List.forall_mem_append] at h
    obtain ⟨-, hinitial, -, hrest⟩ := h
    obtain ⟨hrev, heq⟩ := Expr.revisable_of_matchesOptional hinitial
    have hds := ih hrest
    rw [Place.length_layers_after] at hds
    refine ⟨List.forall_mem_cons.2 ⟨hrev, hds.1⟩, ?_⟩
    rw [List.map_cons, List.map_cons, hds.2]
    exact congrArg (· :: _) (congrArg (Definition.mk d.token d.name) heq)

-- The frames follow the place: each scope that the walk enters is one more unchanged frame.
mutual

theorem Stmt.alters_relabel (hR : R.KeepsInner) {P : Place} (s : Stmt)
    (h : ∀ v ∈ s.visits P, v.Matches L fs R)
    (hn : R.Suits fs P.layers.length s.variables s.fixtures) :
    s.Alters L (Frame.inside fs P.layers.length) (s.relabel R P.layers.length) := by
  match s with
  | .hole => exact .hole
  | .expression _ value =>
    simp only [Stmt.visits, List.forall_mem_cons] at h
    obtain ⟨hrev, heq⟩ := Expr.revisable_of_matches h.2
    rw [Stmt.relabel, heq]
    exact .expression hrev
  | .print _ value =>
    simp only [Stmt.visits, List.forall_mem_cons] at h
    obtain ⟨hrev, heq⟩ := Expr.revisable_of_matches h.2
    rw [Stmt.relabel, heq]
    exact .print hrev
  | .define ⟨_, name, initial⟩ =>
    simp only [Stmt.visits, List.forall_mem_cons] at h
    have hinitial := Expr.revisable_of_matchesOptional h.2.2
    rw [Place.length_layers_initializer] at hinitial
    obtain ⟨names, hhere, hname⟩ := hn.locals name.text (List.mem_singleton_self _)
    rw [Stmt.relabel, hinitial.2, Token.renamed, hname]
    exact .define hhere hinitial.1
  | .block _ body =>
    simp only [Stmt.visits, List.forall_mem_cons] at h
    exact .block L.renames_refl (Stmt.revises_relabelList hR body h.2 (.succ hR _ _ _))
  | .operation o =>
    simp only [Stmt.visits, List.forall_mem_cons] at h
    have ho := Operation.revises_relabel hR o h.2.2
    rw [Place.length_layers_after] at ho
    obtain ⟨names, hhere, hname⟩ := hn.fixtures o.name.text (List.mem_singleton_self _)
    exact .operation hhere hname ho
  | .conditional _ condition branch arms none =>
    simp only [Stmt.visits, List.cons_append, List.forall_mem_cons, List.forall_mem_append] at h
    obtain ⟨hrev, heq⟩ := Expr.revisable_of_matches h.2.1.1
    obtain ⟨hbranch, harms⟩ := Relabelling.Suits.of_append hn
    have ha := Arm.revises_relabelList hR (P := (P.after branch.declares).child 1) arms h.2.2
      (by simpa using harms)
    rw [Place.length_layers_child, Place.length_layers_after] at ha
    rw [Stmt.relabel, heq]
    have hb := Stmt.alters_relabel hR (P := P.child 0) branch h.2.1.2 hbranch
    exact .conditional hrev (.plain hb) ha
  | .conditional _ condition branch arms (some last) =>
    simp only [Stmt.visits, List.cons_append, List.forall_mem_cons, List.forall_mem_append] at h
    obtain ⟨hrev, heq⟩ := Expr.revisable_of_matches h.2.1.1.1
    obtain ⟨hfirst, hlast⟩ := Relabelling.Suits.of_append hn
    obtain ⟨hbranch, harms⟩ := hfirst.of_append
    have ha := Arm.revises_relabelList hR (P := (P.after branch.declares).child 1) arms h.2.1.2
      (by simpa using harms)
    have hl := Stmt.alters_relabel hR
      (P := (P.after (branch.declares ++ Arm.declaresList arms)).child 2) last h.2.2
      (by simpa using hlast)
    rw [Place.length_layers_child, Place.length_layers_after] at ha hl
    rw [Stmt.relabel, heq]
    have hb := Stmt.alters_relabel hR (P := P.child 0) branch h.2.1.1.2 hbranch
    exact .otherwise hrev (.plain hb) ha (.plain hl)
  | .arm a =>
    simp only [Stmt.visits, List.forall_mem_cons] at h
    exact .arm (Arm.revises_relabel hR a h.2 hn)
  | .loop _ condition body =>
    simp only [Stmt.visits, List.cons_append, List.forall_mem_cons, List.forall_mem_append] at h
    obtain ⟨hrev, heq⟩ := Expr.revisable_of_matches h.2.1
    rw [Stmt.relabel, heq]
    exact .loop hrev (.plain (Stmt.alters_relabel hR (P := P.child 0) body h.2.2 hn))
  | .return _ value =>
    simp only [Stmt.visits, List.forall_mem_cons] at h
    obtain ⟨hrev, heq⟩ := Expr.revisable_of_matchesOptional h.2
    rw [Stmt.relabel, heq]
    exact .return hrev
  | .object _ name methods =>
    simp only [Stmt.visits, List.forall_mem_cons] at h
    have hm := Operation.revises_relabelList hR methods h.2.2
    rw [Place.length_layers_object, Place.length_layers_after] at hm
    obtain ⟨names, hhere, hname⟩ := hn.fixtures name.text (List.mem_singleton_self _)
    exact .object hhere hname hm
  | .enum _ name _ =>
    obtain ⟨names, hhere, hname⟩ := hn.fixtures name.text (List.mem_singleton_self _)
    exact .enum hhere hname
  | .form _ name members =>
    simp only [Stmt.visits, List.forall_mem_cons] at h
    have hm := Definition.revisable_of_matches h.2.2
    rw [Place.length_layers_after] at hm
    obtain ⟨names, hhere, hname⟩ := hn.fixtures name.text List.mem_cons_self
    rw [Stmt.relabel, hm.2]
    refine .form hhere hname fun d hd => ⟨?_, hm.1 d hd⟩
    obtain ⟨others, hothers, heq⟩ := hn.fixtures d.name.text
      (List.mem_cons_of_mem _ (List.mem_map.2 ⟨d, hd, rfl⟩))
    obtain rfl := Option.some.inj (hhere.symm.trans hothers)
    exact heq

theorem Stmt.revises_relabelList (hR : R.KeepsInner) {P : Place} (ss : List Stmt)
    (h : ∀ v ∈ Stmt.visitsOfList P ss, v.Matches L fs R)
    (hn : R.Suits fs P.layers.length (Stmt.variablesOfList ss) (Stmt.fixturesOfList ss)) :
    Stmt.RevisesList L (Frame.inside fs P.layers.length) ss
      (Stmt.relabelList R P.layers.length ss) := by
  match ss with
  | [] => exact .nil
  | s :: ss =>
    rw [Stmt.visitsOfList, List.forall_mem_append] at h
    obtain ⟨hs, hss⟩ := Relabelling.Suits.of_append hn
    have htail := Stmt.revises_relabelList hR (P := (P.after s.declares).child 1) ss h.2
      (by rw [Place.length_layers_child, Place.length_layers_after]; exact hss)
    rw [Place.length_layers_child, Place.length_layers_after] at htail
    exact .cons (.plain (Stmt.alters_relabel hR (P := P.child 0) s h.1 hs)) htail

theorem Operation.revises_relabel (hR : R.KeepsInner) {P : Place} (o : Operation)
    (h : ∀ v ∈ o.visits P, v.Matches L fs R) :
    o.Revises L (Frame.inside fs P.layers.length) (o.relabel R (P.layers.length + 1)) := by
  match o with
  | ⟨token, name, params, body⟩ =>
    rw [Operation.visits, List.forall_mem_append] at h
    have hbody := Stmt.revises_relabelList hR
      (P := (P.operation ⟨token, name, params, body⟩).after (params.map (·.text))) body h.2
      (by rw [Place.length_layers_after]; exact .succ hR _ _ _)
    rw [Place.length_layers_after, Place.length_layers_operation] at hbody
    have ho : Operation.Revises L (Frame.inside fs P.layers.length) ⟨token, name, params, body⟩
        ⟨token, name, params.map (·.renamed (Equiv.refl String)),
          Stmt.relabelList R (P.layers.length + 1) body⟩ := .mk L.renames_refl hbody
    rw [List.map_id'' (Token.renamed_eq_self Equiv.refl_apply)] at ho
    rwa [Operation.relabel, List.map_id'' (Token.renamed_eq_self (hR P.layers.length))]

theorem Operation.revises_relabelList (hR : R.KeepsInner) {P : Place} (os : List Operation)
    (h : ∀ v ∈ Operation.visitsOfList P os, v.Matches L fs R) :
    Operation.RevisesList L (Frame.inside fs P.layers.length) os
      (Operation.relabelList R (P.layers.length + 1) os) := by
  match os with
  | [] => exact .nil
  | o :: os =>
    simp only [Operation.visitsOfList, List.cons_append, List.forall_mem_cons,
      List.forall_mem_append] at h
    exact .cons (Operation.revises_relabel hR (P := P.child 0) o h.2.1)
      (Operation.revises_relabelList hR (P := P.child 1) os h.2.2)

theorem Arm.revises_relabel (hR : R.KeepsInner) {P : Place} (a : Arm)
    (h : ∀ v ∈ a.visits P, v.Matches L fs R)
    (hn : R.Suits fs P.layers.length a.variables a.fixtures) :
    a.Revises L (Frame.inside fs P.layers.length) (a.relabel R P.layers.length) := by
  match a with
  | ⟨_, condition, branch⟩ =>
    rw [Arm.visits, List.forall_mem_append] at h
    obtain ⟨hrev, heq⟩ := Expr.revisable_of_matches h.1
    rw [Arm.relabel, heq]
    exact .mk hrev (.plain (Stmt.alters_relabel hR branch h.2 hn))

theorem Arm.revises_relabelList (hR : R.KeepsInner) {P : Place} (as : List Arm)
    (h : ∀ v ∈ Arm.visitsOfList P as, v.Matches L fs R)
    (hn : R.Suits fs P.layers.length (Arm.variablesOfList as) (Arm.fixturesOfList as)) :
    Arm.RevisesList L (Frame.inside fs P.layers.length) as
      (Arm.relabelList R P.layers.length as) := by
  match as with
  | [] => exact .nil
  | a :: rest =>
    simp only [Arm.visitsOfList, List.cons_append, List.forall_mem_cons,
      List.forall_mem_append] at h
    obtain ⟨ha, hrest⟩ := Relabelling.Suits.of_append hn
    have htail := Arm.revises_relabelList hR (P := (P.after a.declares).child 1) rest h.2.2
      (by simpa using hrest)
    rw [Place.length_layers_child, Place.length_layers_after] at htail
    exact .cons (Arm.revises_relabel hR (P := P.child 0) a h.2.1 ha) htail

end

end Treescript
