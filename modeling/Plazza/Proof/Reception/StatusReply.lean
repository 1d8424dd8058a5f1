import Plazza.Construction.KitchenWorker
import Plazza.Construction.LoadBalancer

namespace Plazza

/-- The reception handles the packets in their order and drops their reports. -/
def receiveAll (kitchen : KitchenHandle) (packets : List Packet) : Option KitchenHandle :=
  packets.foldlM (fun kitchen packet => (handlePacket kitchen packet).map Prod.fst) kitchen

/-- The wire keeps the low byte of the id of a cook. -/
def narrowed (status : CookStatus) : CookStatus :=
  { status with id := (UInt8.ofInt status.id).toNat }

/-- The factory names the recipe of a type after the type. -/
theorem PizzaFactory.getName_create {type : PizzaType} {size : PizzaSize} {recipe : PizzaRecipe}
    (created : create type size = some recipe) : recipe.getName = type.name := by
  obtain ⟨other, known, sameType, _⟩ := create_spec type size
  obtain rfl := Option.some.inj (created.symm.trans known)
  rw [PizzaRecipe.getName, sameType]

/-- The status of a cook shows the name of its pizza exactly while it cooks. -/
theorem Cook.currentPizza_eq (cook : Cook) :
    cook.status.currentPizza = if cook.state = .cooking then cook.currentPizzaType.name else "" := by
  split
  · exact cook.named ‹_›
  · rename_i other
    refine cook.cleared ?_
    cases state : cook.state with
    | idle => rfl
    | cooking => exact absurd state other

/-- The reception decodes a cook status except for the high bits of the id. -/
theorem handleCookStatusPacket_packCook (kitchen : KitchenHandle) (cook : Cook) :
    handlePacket kitchen { type := .cookStatus, cook := packCook cook.status } =
      some ({ kitchen with pendingCooks := kitchen.pendingCooks ++ [narrowed cook.status] }, none) := by
  obtain ⟨recipe, created, _, _⟩ :=
    PizzaFactory.create_spec cook.currentPizzaType cook.currentPizzaSize
  have name := PizzaFactory.getName_create created
  have shown := cook.currentPizza_eq
  simp only [handlePacket, handleCookStatusPacket, packCook, Cook.status, CookState.ofValue_value,
    PizzaType.ofValue_value, PizzaSize.ofValue_value, created, name, Option.bind_eq_bind,
    Option.bind_some, Option.pure_def, Option.map_some, narrowed] at shown ⊢
  rw [shown]

/-- The reception collects the cook statuses in their order. -/
theorem receiveAll_cooks (kitchen : KitchenHandle) (cooks : List Cook) (rest : List Packet) :
    receiveAll kitchen (cooks.map (fun cook =>
        { type := .cookStatus, cook := packCook cook.status }) ++ rest) =
      receiveAll { kitchen with
        pendingCooks := kitchen.pendingCooks ++ cooks.map fun cook => narrowed cook.status } rest := by
  induction cooks generalizing kitchen with
  | nil => simp
  | cons cook others ih =>
      rw [List.map_cons, List.cons_append, receiveAll, List.foldlM_cons,
        handleCookStatusPacket_packCook]
      simp only [Option.map_some, Option.bind_eq_bind, Option.bind_some]
      rw [← receiveAll, ih]
      simp

/-- Updates at distinct keys keep each written value. -/
theorem foldl_update {Index Key Value : Type} [DecidableEq Key] {key : Index → Key}
    (injective : Function.Injective key) (value : Index → Value) (start : Key → Value)
    {indices : List Index} {index : Index} (member : index ∈ indices) :
    indices.foldl (fun values other => Function.update values (key other) (value other)) start
      (key index) = value index := by
  induction indices using List.reverseRecOn with
  | nil => cases member
  | append_singleton front last ih =>
      rw [List.foldl_append, List.foldl_cons, List.foldl_nil]
      by_cases same : key index = key last
      · obtain rfl := injective same
        rw [Function.update_self]
      · rw [Function.update_of_ne same]
        rcases List.mem_append.mp member with before | here
        · exact ih before
        · exact absurd (congrArg key (List.mem_singleton.mp here)) same

theorem Ingredient.ofIndex_injective : Function.Injective ofIndex := by
  intro first second
  revert first second
  decide

/-- A stock packs exactly when each ingredient has a key, and the wire keeps the low 32 bits. -/
theorem packStock_eq_some {stock : Stock} {packed : PackedStock}
    (done : packStock stock = some packed) (index : Fin 9) :
    ∃ units, stock (Ingredient.ofIndex index) = some units ∧
      (packed.quantities.get index).toNat = units % 2 ^ 32 := by
  unfold packStock at done
  split at done
  · rename_i known
    have present := known index
    rw [Ingredient.kAllIngredients_ofIndex] at present
    obtain ⟨units, key⟩ := Option.isSome_iff_exists.mp present
    refine ⟨units, key, ?_⟩
    cases done
    have entry : ∀ units : Fin 9 → UInt32, (Vector.ofFn units).get index = units index :=
      fun units => Vector.getElem_ofFn index.isLt
    rw [entry, Ingredient.kAllIngredients_ofIndex, key]
    exact UInt32.toNat_ofNat'
  · cases done

/-- A stock with every key packs. -/
theorem exists_packStock {stock : Stock} (known : ∀ ingredient, (stock ingredient).isSome) :
    ∃ packed, packStock stock = some packed :=
  ⟨_, if_pos fun _ => known _⟩

/-- The reception decodes a response except for the high bits of its fields. -/
theorem receiveAll_response (kitchen : KitchenHandle) {load capacity : Nat} {stock : Stock}
    {cooks : List Cook} {packets : List Packet}
    (built : sendStatusResponse load capacity stock (cooks.map Cook.status) = some packets) :
    ∃ received, receiveAll kitchen packets = some received ∧
      received.status.load = load % 2 ^ 8 ∧ received.status.capacity = capacity % 2 ^ 8 ∧
      received.status.cooks = kitchen.pendingCooks ++ cooks.map (fun cook => narrowed cook.status) ∧
      (∀ ingredient, ∃ units, stock ingredient = some units ∧
        received.status.stock ingredient = some (units % 2 ^ 32)) ∧
      received.pendingCooks = [] ∧ received.status.id = kitchen.status.id := by
  obtain ⟨packed, done, built⟩ := Option.bind_eq_some_iff.mp built
  obtain rfl := Option.some.inj built
  rw [List.map_map, Function.comp_def, receiveAll_cooks]
  refine ⟨_, rfl, ?_, ?_, rfl, fun ingredient => ?_, rfl, rfl⟩
  · exact UInt8.toNat_ofNat'
  · exact UInt8.toNat_ofNat'
  · obtain ⟨index, rfl⟩ := Ingredient.exists_index ingredient
    obtain ⟨units, key, kept⟩ := packStock_eq_some done index
    refine ⟨units, key, ?_⟩
    rw [← kept]
    exact foldl_update Ingredient.ofIndex_injective
      (fun index => some (packed.quantities.get index).toNat)
      _ (List.mem_finRange index)

/-- The low byte of an id is the id exactly when it is a byte. -/
theorem narrowed_eq_iff (status : CookStatus) :
    narrowed status = status ↔ 0 ≤ status.id ∧ status.id < 256 := by
  have low : ((UInt8.ofInt status.id).toNat : Int) = status.id % 256 := by
    rw [UInt8.ofInt, UInt8.toNat_ofNat']
    omega
  constructor
  · intro same
    have id := congrArg CookStatus.id same
    simp only [narrowed, low] at id
    omega
  · intro small
    rw [narrowed, low, Int.emod_eq_of_lt small.1 small.2]

/-- The status reply shows the kitchen as it is. -/
def StatusKept (nCooks load : Nat) (stock : Stock) (cooks : List Cook) (kitchen : KitchenHandle) :
    Prop :=
  ∃ packets received, sendStatusResponse load (2 * nCooks % 2 ^ 64) stock (cooks.map Cook.status) =
      some packets ∧
    receiveAll kitchen packets = some received ∧
    received.status.load = load ∧ received.status.capacity = 2 * nCooks ∧
    received.status.cooks = cooks.map Cook.status ∧
    ∀ ingredient, received.status.stock ingredient = stock ingredient

/-- Every value of the kitchen fits into its field on the wire. -/
structure FitsWire (nCooks : Nat) (stock : Stock) (cooks : List Cook) : Prop where
  capacity : nCooks ≤ 127
  ids : ∀ cook ∈ cooks, 0 ≤ cook.id ∧ cook.id < 256
  stock : ∀ ingredient, ∃ units, stock ingredient = some units ∧ units < 2 ^ 32

/-- The wire format keeps the status of a kitchen if and only if every value fits into its field. -/
theorem statusKept_iff {nCooks load : Nat} (bounded : load ≤ 2 * nCooks) (stock : Stock)
    (cooks : List Cook) {kitchen : KitchenHandle} (empty : kitchen.pendingCooks = []) :
    StatusKept nCooks load stock cooks kitchen ↔ FitsWire nCooks stock cooks := by
  constructor
  · rintro ⟨packets, received, built, same, loaded, capacity, statuses, stocks⟩
    obtain ⟨other, decoded, _, wireCapacity, wireCooks, wireStock, _⟩ := receiveAll_response kitchen built
    obtain rfl := Option.some.inj (same.symm.trans decoded)
    refine ⟨by omega, fun cook member => ?_, fun ingredient => ?_⟩
    · rw [statuses, empty, List.nil_append] at wireCooks
      exact (narrowed_eq_iff cook.status).mp ((List.map_inj_left.mp wireCooks cook member).symm)
    · obtain ⟨quantity, key, wire⟩ := wireStock ingredient
      rw [stocks, key] at wire
      exact ⟨quantity, key, by have := Option.some.inj wire; omega⟩
  · intro fits
    have known : ∀ ingredient, (stock ingredient).isSome := fun ingredient => by
      obtain ⟨units, key, _⟩ := fits.stock ingredient
      rw [key, Option.isSome_some]
    obtain ⟨packed, done⟩ := exists_packStock known
    have built : ∃ packets, sendStatusResponse load (2 * nCooks % 2 ^ 64) stock
        (cooks.map Cook.status) = some packets := by
      simp [sendStatusResponse, done]
    obtain ⟨packets, built⟩ := built
    obtain ⟨received, decoded, wireLoad, wireCapacity, wireCooks, wireStock, _⟩ :=
      receiveAll_response kitchen built
    have small := fits.capacity
    refine ⟨packets, received, built, decoded, by omega, by omega, ?_, fun ingredient => ?_⟩
    · rw [wireCooks, empty, List.nil_append]
      exact List.map_inj_left.mpr fun cook member =>
        (narrowed_eq_iff cook.status).mpr (fits.ids cook member)
    · obtain ⟨units, key, wire⟩ := wireStock ingredient
      obtain ⟨other, sameKey, less⟩ := fits.stock ingredient
      obtain rfl := Option.some.inj (key.symm.trans sameKey)
      rw [wire, key, Nat.mod_eq_of_lt less]

/-- The stock while a cook bakes the first regina of a kitchen. -/
def reginaStock : Stock :=
  (Stock.initial 5).consume [.dough, .tomato, .gruyere, .ham, .mushrooms]

/-- A kitchen with a pizza in one of two cooks and one in its queue reports itself as it is. -/
theorem statusKept_cooking :
    StatusKept 2 2 reginaStock
      [Cook.new 0,
        (Cook.new 1).start ⟨.regina, .xl, ["dough", "tomato", "gruyere", "ham", "mushrooms"], 2⟩]
      (KitchenHandle.new 3 2) := by
  refine (statusKept_iff (by decide) reginaStock _ rfl).mpr ⟨by decide, ?_, ?_⟩
  · intro cook member
    rcases List.mem_pair.mp member with rfl | rfl <;> decide
  · intro ingredient
    cases ingredient <;> exact ⟨_, rfl, by decide⟩

/-- A fresh kitchen with 128 cooks reports the capacity zero. -/
theorem not_statusKept_many :
    ¬ StatusKept 128 0 (Stock.initial 5) ((List.range 128).map fun id => Cook.new id)
      (KitchenHandle.new 0 128) := by
  rintro ⟨packets, received, built, same, _, capacity, _⟩
  obtain ⟨other, decoded, _, wire, _⟩ := receiveAll_response (KitchenHandle.new 0 128) built
  obtain rfl := Option.some.inj (same.symm.trans decoded)
  rw [capacity] at wire
  exact absurd wire (by decide)

end Plazza
