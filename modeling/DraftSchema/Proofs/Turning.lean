import DraftSchema.Proofs.Blind
import DraftSchema.Proofs.Loose

/-!
# The argument and its length

The argument of a predicate and its length are told apart by a flag alone. Where the flag of one
argument is turned round in a value, what can be seen of the value stays the same: its type, its text,
its key, whether it counts as true, and what it is equal to.
-/

namespace DraftSchema

namespace Value

/-- The flag of an argument, turned round if it is the given one. -/
def flag (own id : Nat) (ofLength : Bool) : Bool := if id = own then !ofLength else ofLength

mutual

/-- A value that has the length of an argument where it had the argument, and the argument where it had
its length. -/
def turned (own : Nat) : Value → Value
  | .list id xs => .list id (turnedAll own xs)
  | .tuple xs => .tuple (turnedAll own xs)
  | .dict id es => .dict id (turnedEntries own es)
  | .range bounds => .range (turnedBounds own bounds)
  | .type t => .type (turnedType own t)
  | .recorder id path => .recorder id (turnedAll own path)
  | .operand id ofLength => .operand id (flag own id ofLength)
  | .comparison id made ofLength op v => .comparison id made (flag own made ofLength) op (v.turned own)
  | .method owner name => .method (owner.turned own) name
  | .null => .null
  | .bool b => .bool b
  | .int n => .int n
  | .float x => .float x
  | .text s => .text s
  | .bytes s => .bytes s
  | .regex r => .regex r
  | .function id body => .function id body
  | .node id => .node id
  | .nodeClass c => .nodeClass c
  | .builtin name => .builtin name
  | .foreign id kind => .foreign id kind
  | .sized n => .sized n
  | .classMethod c name => .classMethod c name

def turnedAll (own : Nat) : List Value → List Value
  | [] => []
  | x :: xs => x.turned own :: turnedAll own xs

def turnedEntries (own : Nat) : List (Value × Value) → List (Value × Value)
  | [] => []
  | (k, x) :: es => (k.turned own, x.turned own) :: turnedEntries own es

def turnedBounds (own : Nat) : Bounds Value → Bounds Value
  | ⟨min, max, minExclusive, maxExclusive, ofLength⟩ =>
    ⟨min.turned own, max.turned own, minExclusive.turned own, maxExclusive.turned own,
     ofLength.turned own⟩

def turnedType (own : Nat) : TypeForm Value → TypeForm Value
  | .basic name => .basic name
  | .any => .any
  | .model m => .model m
  | .list t => .list (turnedType own t)
  | .dict k v => .dict (turnedType own k) (turnedType own v)
  | .generic name ts => .generic name (turnedTypes own ts)
  | .annotated t notes => .annotated (turnedType own t) notes
  | .union barred ts => .union barred (turnedTypes own ts)
  | .reference s => .reference s
  | .other v => .other (v.turned own)

def turnedTypes (own : Nat) : List (TypeForm Value) → List (TypeForm Value)
  | [] => []
  | t :: ts => turnedType own t :: turnedTypes own ts

end

variable {own : Nat}

theorem turnedAll_eq_map (xs : List Value) : turnedAll own xs = xs.map (turned own) := by
  induction xs with
  | nil => rfl
  | cons x xs ih => rw [turnedAll, ih, List.map_cons]

theorem turnedEntries_eq_map (es : List (Value × Value)) :
    turnedEntries own es = es.map fun e => (e.1.turned own, e.2.turned own) := by
  induction es with
  | nil => rfl
  | cons e es ih => rw [turnedEntries, ih, List.map_cons]

theorem turnedTypes_eq_map (ts : List (TypeForm Value)) :
    turnedTypes own ts = ts.map (turnedType own) := by
  induction ts with
  | nil => rfl
  | cons t ts ih => rw [turnedTypes, ih, List.map_cons]

@[simp] theorem length_turnedAll (xs : List Value) : (turnedAll own xs).length = xs.length := by
  rw [turnedAll_eq_map, List.length_map]

@[simp] theorem length_turnedEntries (es : List (Value × Value)) :
    (turnedEntries own es).length = es.length := by
  rw [turnedEntries_eq_map, List.length_map]

theorem ofLength_turnedBounds (b : Bounds Value) :
    (turnedBounds own b).ofLength = b.ofLength.turned own := by
  cases b
  rfl

/-! ## What a value looks like -/

theorem kindName_turned (t : TypeForm Value) : (turnedType own t).kindName = t.kindName := by
  cases t with
  | union barred ts => cases barred <;> rfl
  | _ => rfl

theorem typeName_turned (className : NodeId → String) (v : Value) :
    (v.turned own).typeName className = v.typeName className := by
  cases v with
  | type t => exact kindName_turned t
  | method owner name => cases owner <;> rfl
  | _ => rfl

theorem longTypeName_turned (className : NodeId → String) (v : Value) :
    (v.turned own).longTypeName className = v.longTypeName className := by
  cases v with
  | type t =>
    cases t with
    | union barred ts => cases barred <;> rfl
    | _ => rfl
  | method owner name => exact typeName_turned className (.method owner name)
  | _ => rfl

@[simp] theorem denote?_turned (v : Value) : (v.turned own).denote? = v.denote? := by
  cases v <;> rfl

@[simp] theorem toInt?_turned (v : Value) : (v.turned own).toInt? = v.toInt? := by
  cases v <;> rfl

@[simp] theorem isOperand_turned (v : Value) : (v.turned own).isOperand = v.isOperand := by
  cases v <;> rfl

@[simp] theorem isBound_turned (v : Value) : (v.turned own).isBound = v.isBound := by
  cases v <;> rfl

@[simp] theorem truth_turned (v : Value) : (v.turned own).truth = v.truth := by
  cases v with
  | list id xs | tuple xs => cases xs <;> rfl
  | dict id es => cases es <;> rfl
  | _ => rfl

@[simp] theorem isTrue_turned (v : Value) : (v.turned own).isTrue = v.isTrue := by
  rw [isTrue, truth_turned, isTrue]

@[simp] theorem isCallable_turned (v : Value) : (v.turned own).isCallable = v.isCallable := by
  cases v with
  | type t => cases t <;> rfl
  | _ => rfl

@[simp] theorem isClass_turned (v : Value) : (v.turned own).isClass = v.isClass := by
  cases v with
  | type t => cases t <;> rfl
  | _ => rfl

@[simp] theorem isWhole_turned (v : Value) : (v.turned own).isWhole = v.isWhole := by
  cases v <;> rfl

theorem present_turned (v : Value) : (v.turned own).present = v.present.map (turned own) := by
  cases v <;> rfl

theorem ofType_turned (t : TypeForm Value) :
    (ofType t).turned own = ofType (turnedType own t) := by
  cases t <;> rfl

@[simp] theorem isAbsent_turned (t : TypeForm Value) :
    (turnedType own t).isAbsent = t.isAbsent := by
  cases t <;> rfl

/-! ## Keys -/

mutual

/-- The key of an argument is its number. -/
@[simp] theorem key_turned : (v : Value) → (v.turned own).key = v.key
  | .list _ xs => by simp [turned, key, keysOf_turned xs]
  | .tuple xs => by simp [turned, key, keysOf_turned xs]
  | .dict _ es => by simp [turned, key, entryKeys_turned es]
  | .range b => by simp [turned, key, boundsKey_turned b]
  | .type t => by simp [turned, key, typeKey_turned t]
  | .method owner _ => by simp [turned, key, key_turned owner]
  | .null | .bool _ | .int _ | .float _ | .text _ | .bytes _ | .regex _ | .function .. | .node _
  | .nodeClass _ | .builtin _ | .foreign .. | .sized _ | .recorder .. | .operand ..
  | .comparison .. | .classMethod .. => rfl

theorem keysOf_turned : (xs : List Value) → keysOf (turnedAll own xs) = keysOf xs
  | [] => rfl
  | x :: xs => by rw [turnedAll, keysOf, keysOf, key_turned x, keysOf_turned xs]

theorem entryKeys_turned : (es : List (Value × Value)) →
    entryKeys (turnedEntries own es) = entryKeys es
  | [] => rfl
  | (k, x) :: es => by
    rw [turnedEntries, entryKeys, entryKeys, key_turned k, key_turned x, entryKeys_turned es]

theorem boundsKey_turned : (b : Bounds Value) → boundsKey (turnedBounds own b) = boundsKey b
  | ⟨min, max, minExclusive, maxExclusive, ofLength⟩ => by
    rw [turnedBounds, boundsKey, boundsKey, key_turned min, key_turned max, key_turned minExclusive,
      key_turned maxExclusive, key_turned ofLength]

theorem typeKey_turned : (t : TypeForm Value) → typeKey (turnedType own t) = typeKey t
  | .basic _ | .any | .model _ | .reference _ => rfl
  | .list t => by rw [turnedType, typeKey, typeKey, typeKey_turned t]
  | .dict k v => by rw [turnedType, typeKey, typeKey, typeKey_turned k, typeKey_turned v]
  | .generic _ ts => by rw [turnedType, typeKey, typeKey, typeKeys_turned ts]
  | .annotated t _ => by rw [turnedType, typeKey, typeKey, typeKey_turned t]
  | .union _ ts => by rw [turnedType, typeKey, typeKey, typeKeys_turned ts]
  | .other v => by rw [turnedType, typeKey, typeKey, key_turned v]

theorem typeKeys_turned : (ts : List (TypeForm Value)) →
    typeKeys (turnedTypes own ts) = typeKeys ts
  | [] => rfl
  | t :: ts => by rw [turnedTypes, typeKeys, typeKeys, typeKey_turned t, typeKeys_turned ts]

end

@[simp] theorem turned_beq_turned (a b : Value) : (a.turned own == b.turned own) = (a == b) := by
  rw [Bool.eq_iff_iff, beq_iff, beq_iff, key_turned, key_turned]

theorem get?_turned (es : Entries Value Value) (key : Value) :
    Entries.get? (turnedEntries own es) (key.turned own)
      = (Entries.get? es key).map (turned own) := by
  induction es with
  | nil => rfl
  | cons e es ih =>
    obtain ⟨k, x⟩ := e
    rw [turnedEntries, Entries.get?_cons, Entries.get?_cons, turned_beq_turned, ih]
    split <;> rfl

theorem set_turned (es : Entries Value Value) (key v : Value) :
    Entries.set (turnedEntries own es) (key.turned own) (v.turned own)
      = turnedEntries own (Entries.set es key v) := by
  induction es with
  | nil => rfl
  | cons e es ih =>
    obtain ⟨k, x⟩ := e
    rw [turnedEntries, Entries.set, Entries.set, turned_beq_turned, ih]
    split <;> rfl

theorem has_turned (xs : List Value) (key : Value) :
    Entries.has (turnedAll own xs) (key.turned own) = Entries.has xs key := by
  induction xs with
  | nil => rfl
  | cons x xs ih => rw [turnedAll, Entries.has_cons, Entries.has_cons, turned_beq_turned, ih]

mutual

/-- What keeps a value from being a key. -/
theorem unhashable?_turned : (v : Value) →
    (v.turned own).unhashable? = v.unhashable?.map (turned own)
  | .tuple xs => unhashableAmong?_turned xs
  | .type t => unhashableIn?_turned t
  | .foreign _ kind => by
    simp only [turned, unhashable?]
    split <;> rfl
  | .list .. | .dict .. | .range _ | .node _ | .operand .. | .null | .bool _ | .int _ | .float _
  | .text _ | .bytes _ | .regex _ | .function .. | .nodeClass _ | .builtin _ | .sized _
  | .recorder .. | .comparison .. | .method .. | .classMethod .. => rfl

theorem unhashableAmong?_turned : (xs : List Value) →
    unhashableAmong? (turnedAll own xs) = (unhashableAmong? xs).map (turned own)
  | [] => rfl
  | x :: xs => by
    rw [turnedAll, unhashableAmong?, unhashableAmong?, unhashable?_turned x,
      unhashableAmong?_turned xs]
    cases x.unhashable? <;> rfl

theorem unhashableIn?_turned : (t : TypeForm Value) →
    unhashableIn? (turnedType own t) = (unhashableIn? t).map (turned own)
  | .basic _ | .any | .model _ | .reference _ => rfl
  | .list t => unhashableIn?_turned t
  | .dict k v => by
    rw [turnedType, unhashableIn?, unhashableIn?, unhashableIn?_turned k, unhashableIn?_turned v]
    cases unhashableIn? k <;> rfl
  | .generic _ ts => unhashableMember?_turned ts
  | .annotated t _ => unhashableIn?_turned t
  | .union _ ts => unhashableMember?_turned ts
  | .other v => unhashable?_turned v

theorem unhashableMember?_turned : (ts : List (TypeForm Value)) →
    unhashableMember? (turnedTypes own ts) = (unhashableMember? ts).map (turned own)
  | [] => rfl
  | t :: ts => by
    rw [turnedTypes, unhashableMember?, unhashableMember?, unhashableIn?_turned t,
      unhashableMember?_turned ts]
    cases unhashableIn? t <;> rfl

end

/-! ## Texts -/

section

variable (detail : NodeId → Except Fault String)

mutual

/-- An argument and its length are shown alike. -/
theorem quoted_turned : (v : Value) → (v.turned own).quoted detail = v.quoted detail
  | .list _ xs => by rw [turned, quoted, quoted, quotedAll_turned xs]
  | .tuple xs => by rw [turned, quoted, quoted, quotedAll_turned xs]
  | .dict _ es => by rw [turned, quoted, quoted, quotedEntries_turned es]
  | .range b => by rw [turned, quoted, quoted, quotedBounds_turned b]
  | .type t => by
    simp only [turned, quoted, memberText_turned t]
    cases t <;> rfl
  | .method owner _ => by rw [turned, quoted, quoted, quoted_turned owner]
  | .null | .bool _ | .int _ | .float _ | .text _ | .bytes _ | .regex _ | .function .. | .node _
  | .nodeClass _ | .builtin _ | .foreign .. | .sized _ | .recorder .. | .operand ..
  | .comparison .. | .classMethod .. => rfl

theorem quotedAll_turned : (xs : List Value) →
    quotedAll detail (turnedAll own xs) = quotedAll detail xs
  | [] => rfl
  | x :: xs => by rw [turnedAll, quotedAll, quotedAll, quoted_turned x, quotedAll_turned xs]

theorem quotedEntries_turned : (es : List (Value × Value)) →
    quotedEntries detail (turnedEntries own es) = quotedEntries detail es
  | [] => rfl
  | (k, x) :: es => by
    rw [turnedEntries, quotedEntries, quotedEntries, quoted_turned k, quoted_turned x,
      quotedEntries_turned es]

theorem quotedBounds_turned : (b : Bounds Value) →
    quotedBounds detail (turnedBounds own b) = quotedBounds detail b
  | ⟨min, max, minExclusive, maxExclusive, ofLength⟩ => by
    rw [turnedBounds, quotedBounds, quotedBounds, quoted_turned min, quoted_turned max,
      quoted_turned minExclusive, quoted_turned maxExclusive, quoted_turned ofLength]

theorem memberText_turned : (t : TypeForm Value) →
    memberText detail (turnedType own t) = memberText detail t
  | .basic _ | .any | .model _ | .reference _ => rfl
  | .list t => by rw [turnedType, memberText, memberText, memberText_turned t]
  | .dict k v => by
    rw [turnedType, memberText, memberText, memberText_turned k, memberText_turned v]
  | .generic _ ts => by rw [turnedType, memberText, memberText, memberTexts_turned ts]
  | .annotated t _ => by rw [turnedType, memberText, memberText, memberText_turned t]
  | .union _ ts => by rw [turnedType, memberText, memberText, memberTexts_turned ts]
  | .other v => by
    have hv := quoted_turned v
    cases v <;> first | rfl | exact hv

theorem memberTexts_turned : (ts : List (TypeForm Value)) →
    memberTexts detail (turnedTypes own ts) = memberTexts detail ts
  | [] => rfl
  | t :: ts => by
    rw [turnedTypes, memberTexts, memberTexts, memberText_turned t, memberTexts_turned ts,
      isAbsent_turned]

end

theorem shown_turned (plain : NodeId → Except Fault String) (v : Value) :
    (v.turned own).shown plain detail = v.shown plain detail := by
  have hv := @quoted_turned own detail v
  cases v <;> first | rfl | exact hv

end

/-! ## Equality -/

@[simp] theorem isSelf_turned (a b : Value) :
    (a.turned own).isSelf (b.turned own) = a.isSelf b := by
  cases a with
  | operand id p =>
    cases b with
    | operand id' q =>
      -- the two flags are turned round together
      simp only [turned, isSelf, flag]
      by_cases h : id = id'
      · subst h
        split <;> cases p <;> cases q <;> rfl
      · simp [h]
    | _ => rfl
  | float x =>
    cases b with
    | float y => rfl
    | _ => cases x <;> rfl
  | _ => cases b <;> rfl

theorem equalWhole_turned (a b : Value) :
    equalWhole (a.turned own) (b.turned own) = equalWhole a b := by
  unfold equalWhole
  rw [isOperand_turned, isOperand_turned, denote?_turned, denote?_turned, isWhole_turned,
    isWhole_turned, turned_beq_turned]

section

variable (nodes : NodeId → NodeId → Except Fault Bool)

theorem equalWith_turned_of_whole {a b : Value}
    (h : (a.turned own).equalWith nodes (b.turned own) = equalWhole (a.turned own) (b.turned own))
    (h' : a.equalWith nodes b = equalWhole a b) :
    (a.turned own).equalWith nodes (b.turned own) = a.equalWith nodes b := by
  rw [h, h', equalWhole_turned]

mutual

/-- What is equal stays so, and what cannot be compared. -/
theorem equalWith_turned : (a b : Value) →
    (a.turned own).equalWith nodes (b.turned own) = a.equalWith nodes b
  | .list _ as, b => by
    cases b with
    | list _ bs =>
      simp only [turned, equalWith, length_turnedAll, equalAll_turned as bs]
    | _ => exact equalWith_turned_of_whole nodes (by simp [turned, equalWith]) (by simp [equalWith])
  | .tuple as, b => by
    cases b with
    | tuple bs => simp only [turned, equalWith, length_turnedAll, equalAll_turned as bs]
    | _ => exact equalWith_turned_of_whole nodes (by simp [turned, equalWith]) (by simp [equalWith])
  | .dict _ as, b => by
    cases b with
    | dict _ bs => simp only [turned, equalWith, length_turnedEntries, equalEntries_turned as bs]
    | _ => exact equalWith_turned_of_whole nodes (by simp [turned, equalWith]) (by simp [equalWith])
  | .range as, b => by
    cases b with
    | range bs => simp only [turned, equalWith, equalBounds_turned as bs]
    | _ => exact equalWith_turned_of_whole nodes (by simp [turned, equalWith]) (by simp [equalWith])
  | .node _, b => by
    cases b with
    | node _ => rfl
    | _ => exact equalWith_turned_of_whole nodes (by simp [turned, equalWith]) (by simp [equalWith])
  | .null, b | .bool _, b | .int _, b | .float _, b | .text _, b | .bytes _, b | .regex _, b
  | .function .., b | .type _, b | .nodeClass _, b | .builtin _, b | .foreign .., b | .sized _, b
  | .recorder .., b | .operand .., b | .comparison .., b | .method .., b | .classMethod .., b => by
    exact equalWith_turned_of_whole nodes (by simp [turned, equalWith]) (by simp [equalWith])

theorem equalAll_turned : (as bs : List Value) →
    equalAll nodes (turnedAll own as) (turnedAll own bs) = equalAll nodes as bs
  | a :: as, b :: bs => by
    rw [turnedAll, turnedAll, equalAll, equalAll, isSelf_turned, equalWith_turned a b,
      equalAll_turned as bs]
  | [], _ => by simp [turnedAll, equalAll]
  | _ :: _, [] => by simp [turnedAll, equalAll]

theorem equalEntries_turned : (as bs : List (Value × Value)) →
    equalEntries nodes (turnedEntries own as) (turnedEntries own bs) = equalEntries nodes as bs
  | (k, a) :: as, bs => by
    rw [turnedEntries, equalEntries, equalEntries, get?_turned, equalEntries_turned as bs]
    cases Entries.get? bs k with
    | none => rfl
    | some b => simp only [Option.map_some, isSelf_turned, equalWith_turned a b]
  | [], _ => by simp [turnedEntries, equalEntries]

theorem equalBounds_turned : (a b : Bounds Value) →
    equalBounds nodes (turnedBounds own a) (turnedBounds own b) = equalBounds nodes a b
  | ⟨a, b, c, d, e⟩, ⟨a', b', c', d', e'⟩ => by
    rw [turnedBounds, turnedBounds, equalBounds, equalBounds]
    simp only [isSelf_turned, equalWith_turned a a', equalWith_turned b b', equalWith_turned c c',
      equalWith_turned d d', equalWith_turned e e']

end

end

/-! ## Values without arguments -/

section

variable {σ : Outlook}

mutual

/-- In a value that holds no arguments there is nothing to turn round. -/
theorem turned_of_plain : (v : Value) → v.Blind σ.plain → v.turned own = v
  | .list _ xs, h | .tuple xs, h | .recorder _ xs, h => by rw [turned, turnedAll_of_plain xs h]
  | .dict _ es, h => by rw [turned, turnedEntries_of_plain es h]
  | .range b, h => by rw [turned, turnedBounds_of_plain b h]
  | .type t, h => by rw [turned, turnedType_of_plain t h]
  | .operand .., h => h.elim
  | .comparison .., h => h.1.elim
  | .method .., h => h.elim
  | .null, _ | .bool _, _ | .int _, _ | .float _, _ | .text _, _ | .bytes _, _ | .regex _, _
  | .function .., _ | .node _, _ | .nodeClass _, _ | .builtin _, _ | .foreign .., _ | .sized _, _
  | .classMethod .., _ => rfl

theorem turnedAll_of_plain : (xs : List Value) → AllBlind σ.plain xs → turnedAll own xs = xs
  | [], _ => rfl
  | x :: xs, h => by rw [turnedAll, turned_of_plain x h.1, turnedAll_of_plain xs h.2]

theorem turnedEntries_of_plain : (es : List (Value × Value)) → EntriesBlind σ.plain es →
    turnedEntries own es = es
  | [], _ => rfl
  | (k, x) :: es, h => by
    rw [turnedEntries, turned_of_plain k h.1.1, turned_of_plain x h.1.2,
      turnedEntries_of_plain es h.2]

theorem turnedBounds_of_plain : (b : Bounds Value) → BoundsBlind σ.plain b → turnedBounds own b = b
  | ⟨min, max, minExclusive, maxExclusive, ofLength⟩, ⟨hmin, hmax, hminExclusive, hmaxExclusive, h⟩ =>
    by rw [turnedBounds, turned_of_plain min hmin, turned_of_plain max hmax,
      turned_of_plain minExclusive hminExclusive, turned_of_plain maxExclusive hmaxExclusive,
      turned_of_plain ofLength h]

theorem turnedType_of_plain : (t : TypeForm Value) → TypeBlind σ.plain t → turnedType own t = t
  | .basic _, _ | .any, _ | .model _, _ | .reference _, _ => rfl
  | .list t, h => by rw [turnedType, turnedType_of_plain t h]
  | .dict k v, h => by rw [turnedType, turnedType_of_plain k h.1, turnedType_of_plain v h.2]
  | .generic _ ts, h => by rw [turnedType, turnedTypes_of_plain ts h]
  | .annotated t _, h => by rw [turnedType, turnedType_of_plain t h]
  | .union _ ts, h => by rw [turnedType, turnedTypes_of_plain ts h]
  | .other v, h => by rw [turnedType, turned_of_plain v h]

theorem turnedTypes_of_plain : (ts : List (TypeForm Value)) → TypesBlind σ.plain ts →
    turnedTypes own ts = ts
  | [], _ => rfl
  | t :: ts, h => by rw [turnedTypes, turnedType_of_plain t h.1, turnedTypes_of_plain ts h.2]

end

end

end Value

end DraftSchema
