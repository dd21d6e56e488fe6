import TokenForest.Position

set_option autoImplicit false

namespace TokenForest

structure OperatorInfo where
  name : String
  precedence : Int
  deriving DecidableEq, Repr, Inhabited

/-- An operator as it occurred: its table entry and the place of its token. -/
structure Operator where
  symbol : String
  name : String
  precedence : Int
  position : Position
  deriving DecidableEq, Repr, Inhabited

/-- Finitely many symbols, each with one entry. -/
structure OperatorTable where
  entries : List (String × OperatorInfo)
  nodup : (entries.map Prod.fst).Nodup
  deriving Repr

namespace OperatorTable

def empty : OperatorTable := ⟨[], List.nodup_nil⟩

instance : Inhabited OperatorTable := ⟨empty⟩

def get? (t : OperatorTable) (symbol : String) : Option OperatorInfo :=
  t.entries.lookup symbol

def contains (t : OperatorTable) (symbol : String) : Bool := (t.get? symbol).isSome

def size (t : OperatorTable) : Nat := t.entries.length

def isEmpty (t : OperatorTable) : Bool := t.entries.isEmpty

def insert (t : OperatorTable) (symbol : String) (info : OperatorInfo) : OperatorTable where
  entries := (symbol, info) :: t.entries.filter fun e => e.1 != symbol
  nodup := by
    simp only [List.map_cons, List.nodup_cons, List.mem_map, List.mem_filter, bne_iff_ne, ne_eq]
    refine ⟨fun ⟨e, he, hs⟩ => he.2 hs, ?_⟩
    exact t.nodup.sublist (List.filter_sublist.map Prod.fst)

def ofList (entries : List (String × OperatorInfo)) : OperatorTable :=
  entries.foldl (fun t e => t.insert e.1 e.2) empty

@[simp] theorem get?_empty (symbol : String) : empty.get? symbol = none := rfl

theorem get?_insert_self (t : OperatorTable) (symbol : String) (info : OperatorInfo) :
    (t.insert symbol info).get? symbol = some info := by
  simp [get?, insert]

theorem get?_insert_of_ne (t : OperatorTable) {symbol other : String} (info : OperatorInfo)
    (h : other ≠ symbol) : (t.insert symbol info).get? other = t.get? other := by
  have hb : (other == symbol) = false := beq_false_of_ne h
  simp only [get?, insert, List.lookup_cons, hb]
  induction t.entries with
  | nil => rfl
  | cons e es ih =>
    obtain ⟨key, value⟩ := e
    by_cases he : key = symbol
    · simp [he, List.lookup_cons, hb, ih]
    · simp [he, List.lookup_cons, ih]

def standard : OperatorTable := ofList [
  ("*", ⟨"multiply", 14⟩), ("/", ⟨"divide", 14⟩), ("%", ⟨"modulo", 14⟩),
  ("+", ⟨"add", 13⟩), ("-", ⟨"subtract", 13⟩),
  ("<", ⟨"lessThan", 11⟩), ("<=", ⟨"lessThanOrEqual", 11⟩),
  (">", ⟨"greaterThan", 11⟩), (">=", ⟨"greaterThanOrEqual", 11⟩),
  ("==", ⟨"equal", 10⟩), ("!=", ⟨"notEqual", 10⟩),
  ("&&", ⟨"and", 6⟩), ("||", ⟨"or", 5⟩),
  ("=", ⟨"assignment", 3⟩), (":", ⟨"tuple", 2⟩)]

end OperatorTable

end TokenForest
