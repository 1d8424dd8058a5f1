import Mathlib.Data.List.Basic
import Mathlib.Algebra.Group.Nat.Defs

namespace Plazza

/-- The pizza types carry their wire values. -/
inductive PizzaType where
  | regina
  | margarita
  | americana
  | fantasia
  deriving DecidableEq, Repr

/-- The pizza sizes carry their wire values. -/
inductive PizzaSize where
  | s
  | m
  | l
  | xl
  | xxl
  deriving DecidableEq, Repr

def PizzaType.value : PizzaType → UInt8
  | regina => 1
  | margarita => 2
  | americana => 4
  | fantasia => 8

def PizzaSize.value : PizzaSize → UInt8
  | s => 1
  | m => 2
  | l => 4
  | xl => 8
  | xxl => 16

/-- A byte that names no enumerator has no pizza type. -/
def PizzaType.ofValue (byte : UInt8) : Option PizzaType :=
  if byte = 1 then some regina
  else if byte = 2 then some margarita
  else if byte = 4 then some americana
  else if byte = 8 then some fantasia
  else none

/-- A byte that names no enumerator has no pizza size. -/
def PizzaSize.ofValue (byte : UInt8) : Option PizzaSize :=
  if byte = 1 then some s
  else if byte = 2 then some m
  else if byte = 4 then some l
  else if byte = 8 then some xl
  else if byte = 16 then some xxl
  else none

@[simp] theorem PizzaType.ofValue_value (type : PizzaType) : ofValue type.value = some type := by
  cases type <;> rfl

@[simp] theorem PizzaSize.ofValue_value (size : PizzaSize) : ofValue size.value = some size := by
  cases size <;> rfl

/-- Each enumerator has the byte that names it. -/
theorem PizzaType.value_of_ofValue {byte : UInt8} {type : PizzaType}
    (named : ofValue byte = some type) : type.value = byte := by
  unfold ofValue at named
  split_ifs at named with first second third fourth <;> cases named <;> simp_all [value]

/-- Each enumerator has the byte that names it. -/
theorem PizzaSize.value_of_ofValue {byte : UInt8} {size : PizzaSize}
    (named : ofValue byte = some size) : size.value = byte := by
  unfold ofValue at named
  split_ifs at named <;> cases named <;> simp_all [value]

structure Pizza where
  type : PizzaType
  size : PizzaSize
  deriving DecidableEq, Repr

/-- The quantity is an unsigned 64-bit count. -/
structure PizzaOrder where
  type : PizzaType
  size : PizzaSize
  quantity : Nat
  deriving DecidableEq, Repr

/-- The opaque wire form of a pizza has two bytes. -/
structure PackedPizza where
  bytes : UInt8 × UInt8
  deriving DecidableEq, Repr

def pack (pizza : Pizza) : PackedPizza := ⟨(pizza.type.value, pizza.size.value)⟩

/-- Bytes without an enumerator stand for no pizza. -/
def unpack (data : PackedPizza) : Option Pizza := do
  let type ← PizzaType.ofValue data.bytes.1
  let size ← PizzaSize.ofValue data.bytes.2
  return ⟨type, size⟩

@[simp] theorem unpack_pack (pizza : Pizza) : unpack (pack pizza) = some pizza := by
  simp [unpack, pack]

/-- Packing restores every wire form that unpacks. -/
theorem pack_of_unpack {data : PackedPizza} {pizza : Pizza} (unpacked : unpack data = some pizza) :
    pack pizza = data := by
  rcases data with ⟨first, second⟩
  simp only [unpack, Option.bind_eq_bind, Option.bind_eq_some_iff, Option.pure_def,
    Option.some.injEq] at unpacked
  obtain ⟨type, typeNamed, size, sizeNamed, rfl⟩ := unpacked
  simp only [pack, PizzaType.value_of_ofValue typeNamed, PizzaSize.value_of_ofValue sizeNamed]

/-- A recipe states the ingredients and the cooking time in seconds before the multiplier. -/
structure PizzaRecipe where
  type : PizzaType
  size : PizzaSize
  ingredients : List String
  baseCookSeconds : Nat
  deriving DecidableEq, Repr

def PizzaRecipe.withSize (recipe : PizzaRecipe) (newSize : PizzaSize) : PizzaRecipe :=
  { recipe with size := newSize }

def PizzaType.name : PizzaType → String
  | margarita => "Margarita"
  | regina => "Regina"
  | americana => "Americana"
  | fantasia => "Fantasia"

def PizzaRecipe.getName (recipe : PizzaRecipe) : String := recipe.type.name

namespace PizzaFactory

abbrev Registry := List (PizzaType × PizzaRecipe)

/-- A second registration of one type has no effect. -/
def registerPizza (registry : Registry) (type : PizzaType) (prototype : PizzaRecipe) : Registry :=
  if registry.any fun entry => entry.1 = type then registry else registry ++ [(type, prototype)]

def registerBuiltinPizzas (registry : Registry) : Registry :=
  let withMargarita := registerPizza registry .margarita
    ⟨.margarita, .m, ["dough", "tomato", "gruyere"], 1⟩
  let withRegina := registerPizza withMargarita .regina
    ⟨.regina, .m, ["dough", "tomato", "gruyere", "ham", "mushrooms"], 2⟩
  let withAmericana := registerPizza withRegina .americana
    ⟨.americana, .m, ["dough", "tomato", "gruyere", "steak"], 2⟩
  registerPizza withAmericana .fantasia
    ⟨.fantasia, .m, ["dough", "tomato", "eggplant", "goat cheese", "chief love"], 4⟩

/-- The program registers only the built-in pizzas. -/
def registry : Registry := registerBuiltinPizzas []

/-- An unregistered type has no recipe. -/
def create (type : PizzaType) (size : PizzaSize) : Option PizzaRecipe :=
  (registry.find? fun entry => entry.1 = type).map fun entry => entry.2.withSize size

/-- The factory knows every type and answers with a recipe of the requested type and size. -/
theorem create_spec (type : PizzaType) (size : PizzaSize) :
    ∃ recipe, create type size = some recipe ∧ recipe.type = type ∧ recipe.size = size := by
  cases type <;> exact ⟨_, rfl, rfl, rfl⟩

end PizzaFactory

end Plazza
