import DraftSchema.Evaluation.Call

/-!
# Bodies that ask for no attributes

A body is blind if no attribute is asked for in it, nor in the functions among its constants and those
that it finds in variables. What such a body comes upon is blind as well: the functions in it are, no
operation is bound to a value in it, and the arguments of predicates in it are those that may be met.
-/

namespace DraftSchema

/-- What blind bodies may come upon, in a run for which the argument of one predicate counts. -/
structure Outlook where
  /-- The number of that argument. -/
  own : Nat
  /-- The arguments of predicates that may be met, by their numbers, and whether they are lengths. -/
  operands : Nat → Bool → Prop
  /-- The names of the variables that may be asked for. -/
  names : String → Prop

/-- Where no arguments of predicates are met. -/
def Outlook.plain (σ : Outlook) : Outlook := { σ with operands := fun _ _ => False }

/-- Where one argument of a predicate is met, but not its length. -/
def Outlook.reading (σ : Outlook) (operand : Nat) : Outlook :=
  { σ with operands := fun n ofLength => n = operand ∧ ofLength = false }

/-! ## Literals and bodies -/

mutual

/-- The functions in a literal ask for no attributes, and it names no variables but some. -/
def Literal.Blind (names : String → Prop) : Literal → Prop
  | .list xs | .tuple xs => Literal.AllBlind names xs
  | .dict entries => Literal.EntriesBlind names entries
  | .function body => Expression.Blind names body
  | .range bounds => Literal.BoundsBlind names bounds
  | .node _ args named rules =>
    Literal.AllBlind names args ∧ Literal.NamedBlind names named ∧ Literal.PairsBlind names rules
  | .ref name => names name
  | .type t => Literal.TypeBlind names t
  | _ => True

def Literal.AllBlind (names : String → Prop) : List Literal → Prop
  | [] => True
  | x :: xs => x.Blind names ∧ Literal.AllBlind names xs

def Literal.EntriesBlind (names : String → Prop) : List (String × Literal) → Prop
  | [] => True
  | (_, x) :: es => x.Blind names ∧ Literal.EntriesBlind names es

def Literal.NamedBlind (names : String → Prop) : List (Parameter × Literal) → Prop
  | [] => True
  | (_, x) :: ps => x.Blind names ∧ Literal.NamedBlind names ps

def Literal.PairsBlind (names : String → Prop) : List (Literal × Literal) → Prop
  | [] => True
  | (selector, value) :: ps =>
    selector.Blind names ∧ value.Blind names ∧ Literal.PairsBlind names ps

def Literal.BoundsBlind (names : String → Prop) : Bounds Literal → Prop
  | ⟨min, max, minExclusive, maxExclusive, ofLength⟩ =>
    min.Blind names ∧ max.Blind names ∧ minExclusive.Blind names ∧ maxExclusive.Blind names ∧
      ofLength.Blind names

def Literal.TypeBlind (names : String → Prop) : TypeLiteral Literal → Prop
  | .basic _ | .any | .model _ => True
  | .optional t | .list t | .annotated t => Literal.TypeBlind names t
  | .choice ts | .joined ts => Literal.TypesBlind names ts
  | .dict key value => Literal.TypeBlind names key ∧ Literal.TypeBlind names value
  | .value v => v.Blind names

def Literal.TypesBlind (names : String → Prop) : List (TypeLiteral Literal) → Prop
  | [] => True
  | t :: ts => Literal.TypeBlind names t ∧ Literal.TypesBlind names ts

/-- A body asks for no attributes, nor do the functions in it, and it names no variables but some. -/
def Expression.Blind (names : String → Prop) : Expression Literal → Prop
  | .arg | .raise _ => True
  | .const c => c.Blind names
  | .attr .. => False
  | .slice e _ _ | .neg e | .length e | .elements e | .not e => Expression.Blind names e
  | .item a b | .compare _ a b | .arith _ a b | .member a b | .and a b | .or a b =>
    Expression.Blind names a ∧ Expression.Blind names b
  | .chain a _ b _ c | .cond a b c =>
    Expression.Blind names a ∧ Expression.Blind names b ∧ Expression.Blind names c
  | .call callee args => Expression.Blind names callee ∧ Expression.AllBlind names args

def Expression.AllBlind (names : String → Prop) : List (Expression Literal) → Prop
  | [] => True
  | e :: es => Expression.Blind names e ∧ Expression.AllBlind names es

end

/-! ## Values -/

mutual

/-- The functions in a value are blind, and nothing else in it is more than may be met. -/
def Value.Blind (σ : Outlook) : Value → Prop
  | .list _ xs | .tuple xs | .recorder _ xs => Value.AllBlind σ xs
  | .dict _ entries => Value.EntriesBlind σ entries
  | .function _ body => body.Blind σ.names
  | .range bounds => Value.BoundsBlind σ bounds
  | .type t => Value.TypeBlind σ t
  | .operand id ofLength => σ.operands id ofLength
  | .comparison _ made ofLength _ v => σ.operands made ofLength ∧ v.Blind σ
  | .method .. | .classMethod .. => False
  | _ => True

def Value.AllBlind (σ : Outlook) : List Value → Prop
  | [] => True
  | x :: xs => x.Blind σ ∧ Value.AllBlind σ xs

def Value.EntriesBlind (σ : Outlook) : List (Value × Value) → Prop
  | [] => True
  | (k, x) :: es => (k.Blind σ ∧ x.Blind σ) ∧ Value.EntriesBlind σ es

def Value.BoundsBlind (σ : Outlook) : Bounds Value → Prop
  | ⟨min, max, minExclusive, maxExclusive, ofLength⟩ =>
    min.Blind σ ∧ max.Blind σ ∧ minExclusive.Blind σ ∧ maxExclusive.Blind σ ∧ ofLength.Blind σ

def Value.TypeBlind (σ : Outlook) : TypeForm Value → Prop
  | .basic _ | .any | .model _ | .reference _ => True
  | .list t | .annotated t _ => Value.TypeBlind σ t
  | .dict key value => Value.TypeBlind σ key ∧ Value.TypeBlind σ value
  | .generic _ ts | .union _ ts => Value.TypesBlind σ ts
  | .other v => v.Blind σ

def Value.TypesBlind (σ : Outlook) : List (TypeForm Value) → Prop
  | [] => True
  | t :: ts => Value.TypeBlind σ t ∧ Value.TypesBlind σ ts

end

/-- A value can be called without that an attribute is asked for: a function is blind, and an operation
that is bound to a value is not called. What a type is made of does not matter. -/
def Value.Callee (names : String → Prop) : Value → Prop
  | .function _ body => body.Blind names
  | .method .. | .classMethod .. => False
  | _ => True

namespace Value

variable {σ : Outlook}

theorem Blind.callee {v : Value} (h : v.Blind σ) : v.Callee σ.names := by
  cases v <;> first | exact h | trivial

theorem allBlind_iff {xs : List Value} : AllBlind σ xs ↔ ∀ x ∈ xs, x.Blind σ := by
  induction xs with
  | nil => simp [AllBlind]
  | cons x xs ih => simp [AllBlind, ih]

theorem entriesBlind_iff {es : List (Value × Value)} :
    EntriesBlind σ es ↔ ∀ e ∈ es, e.1.Blind σ ∧ e.2.Blind σ := by
  induction es with
  | nil => simp [EntriesBlind]
  | cons e es ih =>
    obtain ⟨k, x⟩ := e
    simp [EntriesBlind, ih]

theorem typesBlind_iff {ts : List (TypeForm Value)} :
    TypesBlind σ ts ↔ ∀ t ∈ ts, TypeBlind σ t := by
  induction ts with
  | nil => simp [TypesBlind]
  | cons t ts ih => simp [TypesBlind, ih]

@[simp] theorem blind_list {id : Nat} {xs : List Value} :
    (Value.list id xs).Blind σ ↔ ∀ x ∈ xs, x.Blind σ := allBlind_iff

@[simp] theorem blind_tuple {xs : List Value} :
    (Value.tuple xs).Blind σ ↔ ∀ x ∈ xs, x.Blind σ := allBlind_iff

@[simp] theorem blind_recorder {id : Nat} {path : List Value} :
    (Value.recorder id path).Blind σ ↔ ∀ x ∈ path, x.Blind σ := allBlind_iff

@[simp] theorem blind_dict {id : Nat} {es : List (Value × Value)} :
    (Value.dict id es).Blind σ ↔ ∀ e ∈ es, e.1.Blind σ ∧ e.2.Blind σ := entriesBlind_iff

@[simp] theorem blind_range {b : Bounds Value} : (Value.range b).Blind σ ↔
    b.min.Blind σ ∧ b.max.Blind σ ∧ b.minExclusive.Blind σ ∧ b.maxExclusive.Blind σ ∧
      b.ofLength.Blind σ := by
  obtain ⟨min, max, minExclusive, maxExclusive, ofLength⟩ := b
  exact Iff.rfl

@[simp] theorem blind_null : Value.null.Blind σ := trivial

@[simp] theorem blind_bool (b : Bool) : (Value.bool b).Blind σ := trivial

@[simp] theorem blind_int (n : Int) : (Value.int n).Blind σ := trivial

@[simp] theorem blind_text (s : String) : (Value.text s).Blind σ := trivial

@[simp] theorem blind_bytes (s : String) : (Value.bytes s).Blind σ := trivial

@[simp] theorem blind_node (id : NodeId) : (Value.node id).Blind σ := trivial

/-! ## Parts of collections -/

theorem blind_of_get? {κ : Type} [BEq κ] {es : Entries κ Value} {key : κ} {v : Value}
    (hes : ∀ e ∈ es, e.2.Blind σ) (h : es.get? key = some v) : v.Blind σ := by
  induction es with
  | nil => cases h
  | cons e es ih =>
    obtain ⟨k, x⟩ := e
    rw [Entries.get?_cons] at h
    split at h
    · cases h
      exact hes _ List.mem_cons_self
    · exact ih (fun e he => hes e (List.mem_cons_of_mem _ he)) h

theorem blind_set {es : Entries Value Value} {key v : Value}
    (hes : ∀ e ∈ es, e.1.Blind σ ∧ e.2.Blind σ) (hkey : key.Blind σ) (hv : v.Blind σ) :
    ∀ e ∈ es.set key v, e.1.Blind σ ∧ e.2.Blind σ := by
  induction es with
  | nil => simp [Entries.set, hkey, hv]
  | cons e es ih =>
    obtain ⟨⟨hk, hx⟩, hrest⟩ := List.forall_mem_cons.mp hes
    obtain ⟨k, x⟩ := e
    rw [Entries.set]
    split
    · exact List.forall_mem_cons.mpr ⟨⟨hk, hv⟩, hrest⟩
    · exact List.forall_mem_cons.mpr ⟨⟨hk, hx⟩, ih hrest⟩

theorem blind_foldl_set {es : Entries Value Value} (hes : ∀ e ∈ es, e.1.Blind σ ∧ e.2.Blind σ)
    {more : Entries Value Value} (hmore : ∀ e ∈ more, e.1.Blind σ ∧ e.2.Blind σ) :
    ∀ e ∈ more.foldl (fun acc e => acc.set e.1 e.2) es, e.1.Blind σ ∧ e.2.Blind σ := by
  induction more generalizing es with
  | nil => exact hes
  | cons e more ih =>
    obtain ⟨he, hrest⟩ := List.forall_mem_cons.mp hmore
    exact ih (blind_set hes he.1 he.2) hrest

/-! ## Types -/

theorem blind_ofType {t : TypeForm Value} (h : TypeBlind σ t) : (ofType t).Blind σ := by
  cases t <;> exact h

theorem blind_present {v : Value} (h : v.Blind σ) : ∀ u ∈ v.present, u.Blind σ := by
  unfold Value.present
  split
  · simp
  · simpa using h

/-! ## More that may be met -/

variable {operands : Nat → Bool → Prop}

mutual

/-- Where more arguments of predicates may be met, no less is blind. -/
theorem Blind.mono (hmore : ∀ n b, σ.operands n b → operands n b) : (v : Value) → v.Blind σ →
    v.Blind { σ with operands }
  | .list _ xs, h | .tuple xs, h | .recorder _ xs, h => AllBlind.mono hmore xs h
  | .dict _ es, h => EntriesBlind.mono hmore es h
  | .range b, h => BoundsBlind.mono hmore b h
  | .type t, h => TypeBlind.mono hmore t h
  | .operand id ofLength, h => hmore id ofLength h
  | .comparison _ made ofLength _ v, h => ⟨hmore made ofLength h.1, Blind.mono hmore v h.2⟩
  | .function .., h | .method .., h | .classMethod .., h | .null, h | .bool _, h | .int _, h
  | .float _, h | .text _, h | .bytes _, h | .regex _, h | .node _, h | .nodeClass _, h
  | .builtin _, h | .foreign .., h | .sized _, h => h

theorem AllBlind.mono (hmore : ∀ n b, σ.operands n b → operands n b) : (xs : List Value) →
    AllBlind σ xs → AllBlind { σ with operands } xs
  | [], h => h
  | x :: xs, h => ⟨Blind.mono hmore x h.1, AllBlind.mono hmore xs h.2⟩

theorem EntriesBlind.mono (hmore : ∀ n b, σ.operands n b → operands n b) : (es : List (Value × Value)) →
    EntriesBlind σ es → EntriesBlind { σ with operands } es
  | [], h => h
  | (k, x) :: es, h =>
    ⟨⟨Blind.mono hmore k h.1.1, Blind.mono hmore x h.1.2⟩, EntriesBlind.mono hmore es h.2⟩

theorem BoundsBlind.mono (hmore : ∀ n b, σ.operands n b → operands n b) : (b : Bounds Value) →
    BoundsBlind σ b → BoundsBlind { σ with operands } b
  | ⟨min, max, minExclusive, maxExclusive, ofLength⟩, h =>
    ⟨Blind.mono hmore min h.1, Blind.mono hmore max h.2.1, Blind.mono hmore minExclusive h.2.2.1,
     Blind.mono hmore maxExclusive h.2.2.2.1, Blind.mono hmore ofLength h.2.2.2.2⟩

theorem TypeBlind.mono (hmore : ∀ n b, σ.operands n b → operands n b) : (t : TypeForm Value) →
    TypeBlind σ t → TypeBlind { σ with operands } t
  | .basic _, h | .any, h | .model _, h | .reference _, h => h
  | .list t, h | .annotated t _, h => TypeBlind.mono hmore t h
  | .dict k v, h => ⟨TypeBlind.mono hmore k h.1, TypeBlind.mono hmore v h.2⟩
  | .generic _ ts, h | .union _ ts, h => TypesBlind.mono hmore ts h
  | .other v, h => Blind.mono hmore v h

theorem TypesBlind.mono (hmore : ∀ n b, σ.operands n b → operands n b) : (ts : List (TypeForm Value)) →
    TypesBlind σ ts → TypesBlind { σ with operands } ts
  | [], h => h
  | t :: ts, h => ⟨TypeBlind.mono hmore t h.1, TypesBlind.mono hmore ts h.2⟩

end

theorem Blind.of_plain {v : Value} (h : v.Blind σ.plain) : v.Blind σ :=
  @Blind.mono σ.plain σ.operands (fun _ _ h => h.elim) v h

end Value

end DraftSchema
