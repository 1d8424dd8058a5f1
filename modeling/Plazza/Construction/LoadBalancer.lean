import Plazza.Construction.Packet
import Plazza.Construction.Cook

namespace Plazza

structure KitchenStatus where
  id : Nat
  load : Nat
  capacity : Nat
  cooks : List CookStatus
  stock : Ingredient → Option Nat

/-- The handle names its two queues and its process by the kitchen id. -/
structure KitchenHandle where
  id : Nat
  load : Nat
  capacity : Nat
  alive : Bool
  status : KitchenStatus
  pendingCooks : List CookStatus

/-- A new handle belongs to a live kitchen without load. -/
def KitchenHandle.new (kitchenId nCooks : Nat) : KitchenHandle where
  id := kitchenId
  load := 0
  capacity := 2 * nCooks % 2 ^ 64
  alive := true
  status := ⟨kitchenId, 0, 2 * nCooks % 2 ^ 64, [], fun _ => none⟩
  pendingCooks := []

/-- The guard keeps the load from wrapping below zero. -/
def KitchenHandle.dropLoad (kitchen : KitchenHandle) : KitchenHandle :=
  { kitchen with load := if 0 < kitchen.load then kitchen.load - 1 else kitchen.load }

/-- A done packet is logged by name and reported to the callback. -/
structure DoneReport where
  kitchenId : Nat
  pizzaName : String
  type : PizzaType
  size : PizzaSize
  deriving DecidableEq

def handleDonePacket (kitchen : KitchenHandle) (packet : Packet) :
    Option (KitchenHandle × DoneReport) := do
  let pizza ← unpack packet.pizza
  let recipe ← PizzaFactory.create pizza.type pizza.size
  return (kitchen.dropLoad, ⟨kitchen.id, recipe.getName, pizza.type, pizza.size⟩)

/-- Bytes without an enumerator stand for no status. -/
def handleCookStatusPacket (kitchen : KitchenHandle) (packet : Packet) : Option KitchenHandle := do
  let state ← CookState.ofValue packet.cook.state
  let type ← PizzaType.ofValue packet.cook.pizzaType
  let size ← PizzaSize.ofValue packet.cook.pizzaSize
  let recipe ← PizzaFactory.create type size
  let currentPizza := if state = .cooking then recipe.getName else ""
  return { kitchen with
    pendingCooks := kitchen.pendingCooks ++ [⟨packet.cook.id.toNat, state, currentPizza, type, size⟩] }

def handleStatusReplyPacket (kitchen : KitchenHandle) (packet : Packet) : KitchenHandle :=
  { kitchen with
    status := { kitchen.status with
      load := packet.load.toNat
      capacity := packet.capacity.toNat
      cooks := kitchen.pendingCooks
      stock := (List.finRange 9).foldl (fun stock index =>
        Function.update stock (Ingredient.ofIndex index)
          (some (packet.stock.quantities.get index).toNat)) kitchen.status.stock }
    pendingCooks := [] }

/-- The process has exited when its shutdown packet is handled. -/
def handleShutdownPacket (kitchen : KitchenHandle) : KitchenHandle := { kitchen with alive := false }

def handleFullPacket (kitchen : KitchenHandle) : KitchenHandle := kitchen.dropLoad

/-- The switch ignores every other packet. -/
def handlePacket (kitchen : KitchenHandle) (packet : Packet) :
    Option (KitchenHandle × Option DoneReport) :=
  match packet.type with
  | .done => (handleDonePacket kitchen packet).map fun result => (result.1, some result.2)
  | .cookStatus => (handleCookStatusPacket kitchen packet).map fun kitchen => (kitchen, none)
  | .statusReply => some (handleStatusReplyPacket kitchen packet, none)
  | .shutdown => some (handleShutdownPacket kitchen, none)
  | .full => some (handleFullPacket kitchen, none)
  | _ => some (kitchen, none)

/-- The scan keeps the first live kitchen below its capacity with the least load. -/
def chooseBest (best : Option (Nat × Nat)) (entry : KitchenHandle × Nat) : Option (Nat × Nat) :=
  if entry.1.alive && entry.1.load < entry.1.capacity then
    match best with
    | none => some (entry.2, entry.1.load)
    | some (index, load) =>
        if entry.1.load < load then some (entry.2, entry.1.load) else some (index, load)
  else best

/-- The result is the position of the chosen kitchen. -/
def bestKitchen (kitchens : List KitchenHandle) : Option Nat :=
  (kitchens.zipIdx.foldl chooseBest none).map Prod.fst

/-- An order asks for each of its pizzas in turn. -/
def expand (orders : List PizzaOrder) : List Pizza :=
  orders.flatMap fun order => List.replicate order.quantity ⟨order.type, order.size⟩

/-- A usable kitchen is live and below its capacity. -/
def KitchenHandle.Usable (kitchen : KitchenHandle) : Prop :=
  kitchen.alive = true ∧ kitchen.load < kitchen.capacity

theorem KitchenHandle.usable_iff {kitchen : KitchenHandle} :
    (kitchen.alive && kitchen.load < kitchen.capacity) = true ↔ kitchen.Usable := by
  rw [Bool.and_eq_true, decide_eq_true_iff]
  rfl

/-- The scan either keeps its choice or takes a usable entry. -/
theorem chooseBest_cases {best : Option (Nat × Nat)} {entry : KitchenHandle × Nat}
    {found : Nat × Nat} (member : found ∈ chooseBest best entry) :
    found ∈ best ∨ found = (entry.2, entry.1.load) ∧ entry.1.Usable := by
  unfold chooseBest at member
  split at member
  case isTrue usable =>
    have usable := KitchenHandle.usable_iff.mp usable
    cases best with
    | none => exact .inr ⟨(Option.some.inj member).symm, usable⟩
    | some best =>
        dsimp only at member
        split at member
        · exact .inr ⟨(Option.some.inj member).symm, usable⟩
        · exact .inl member
  case isFalse => exact .inl member

/-- The new choice has at most the load of the old one and of a usable entry. -/
theorem chooseBest_le (best : Option (Nat × Nat)) (entry : KitchenHandle × Nat) :
    (∀ earlier ∈ best, ∃ found ∈ chooseBest best entry, found.2 ≤ earlier.2) ∧
      (entry.1.Usable → ∃ found ∈ chooseBest best entry, found.2 ≤ entry.1.load) := by
  unfold chooseBest
  split
  case isTrue usable =>
    cases best with
    | none => exact ⟨nofun, fun _ => ⟨_, rfl, Nat.le_refl _⟩⟩
    | some best =>
        dsimp only
        split
        · rename_i smaller
          refine ⟨fun earlier same => ⟨_, rfl, ?_⟩, fun _ => ⟨_, rfl, Nat.le_refl _⟩⟩
          obtain rfl : best = earlier := Option.some.inj same
          exact Nat.le_of_lt smaller
        · rename_i larger
          refine ⟨fun earlier same => ⟨_, rfl, ?_⟩, fun _ => ⟨_, rfl, Nat.le_of_not_lt larger⟩⟩
          obtain rfl : best = earlier := Option.some.inj same
          exact Nat.le_refl _
  case isFalse unusable =>
    exact ⟨fun earlier member => ⟨earlier, member, Nat.le_refl _⟩,
      fun usable => absurd (KitchenHandle.usable_iff.mpr usable) unusable⟩

/-- Only the starting choice and the usable entries can win the scan. -/
theorem chooseBest_scan {entries : List (KitchenHandle × Nat)} {best : Option (Nat × Nat)}
    {found : Nat × Nat} (member : found ∈ entries.foldl chooseBest best) :
    found ∈ best ∨ ∃ entry ∈ entries, found = (entry.2, entry.1.load) ∧ entry.1.Usable := by
  induction entries generalizing best with
  | nil => exact .inl member
  | cons entry rest ih =>
      obtain earlier | ⟨other, inside, usable⟩ := ih member
      · obtain kept | usable := chooseBest_cases earlier
        · exact .inl kept
        · exact .inr ⟨entry, List.mem_cons_self, usable⟩
      · exact .inr ⟨other, List.mem_cons_of_mem _ inside, usable⟩

/-- The winner of the scan has at most the load of the starting choice and of each usable entry. -/
theorem chooseBest_scan_le (entries : List (KitchenHandle × Nat)) (best : Option (Nat × Nat)) :
    (∀ earlier ∈ best, ∃ found ∈ entries.foldl chooseBest best, found.2 ≤ earlier.2) ∧
      ∀ entry ∈ entries, entry.1.Usable →
        ∃ found ∈ entries.foldl chooseBest best, found.2 ≤ entry.1.load := by
  induction entries generalizing best with
  | nil => exact ⟨fun earlier member => ⟨earlier, member, Nat.le_refl _⟩, nofun⟩
  | cons entry rest ih =>
      obtain ⟨first, later⟩ := ih (chooseBest best entry)
      obtain ⟨old, new⟩ := chooseBest_le best entry
      constructor
      · intro earlier member
        obtain ⟨choice, chosen, below⟩ := old earlier member
        obtain ⟨found, won, least⟩ := first choice chosen
        exact ⟨found, won, Nat.le_trans least below⟩
      · intro other inside usable
        rcases List.mem_cons.mp inside with rfl | inside
        · obtain ⟨choice, chosen, below⟩ := new usable
          obtain ⟨found, won, least⟩ := first choice chosen
          exact ⟨found, won, Nat.le_trans least below⟩
        · exact later other inside usable

/-- A usable kitchen bounds the load of the winner. -/
theorem exists_found {kitchens : List KitchenHandle} {other : KitchenHandle}
    (member : other ∈ kitchens) (usable : other.Usable) :
    ∃ found ∈ kitchens.zipIdx.foldl chooseBest none, found.2 ≤ other.load := by
  obtain ⟨position, here⟩ := List.mem_iff_getElem?.mp member
  exact (chooseBest_scan_le _ none).2 (other, position) (List.mem_zipIdx_iff_getElem?.mpr here)
    usable

/-- The chosen position names a usable kitchen with the least load. -/
theorem bestKitchen_spec {kitchens : List KitchenHandle} {index : Nat}
    (chosen : bestKitchen kitchens = some index) :
    ∃ kitchen, kitchens[index]? = some kitchen ∧ kitchen.Usable ∧
      ∀ other ∈ kitchens, other.Usable → kitchen.load ≤ other.load := by
  obtain ⟨found, member, rfl⟩ := Option.map_eq_some_iff.mp chosen
  obtain none' | ⟨entry, inside, rfl, usable⟩ := chooseBest_scan member
  · cases none'
  · refine ⟨entry.1, List.mem_zipIdx_iff_getElem?.mp inside, usable, fun other inside usable => ?_⟩
    obtain ⟨winner, won, least⟩ := exists_found inside usable
    rwa [← Option.mem_unique member won] at least

/-- No kitchen is chosen only when none is usable. -/
theorem bestKitchen_none {kitchens : List KitchenHandle} (unchosen : bestKitchen kitchens = none) :
    ∀ kitchen ∈ kitchens, ¬kitchen.Usable := by
  intro kitchen member usable
  obtain ⟨found, won, _⟩ := exists_found member usable
  rw [Option.map_eq_none_iff.mp unchosen] at won
  cases won

end Plazza
