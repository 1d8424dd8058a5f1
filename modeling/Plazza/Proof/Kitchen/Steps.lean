import Plazza.Construction.KitchenWorker

namespace Plazza.KitchenWorker
open Plazza.Foundation

variable {nCooks : Nat}

/-- The main thread advances in one of these ways without its queues and its pool. -/
inductive Advance (now : Nat) (worker : KitchenWorker nCooks) : KitchenWorker nCooks → Prop
  | start (control : worker.control = .starting) :
      Advance now worker { worker with lastActiveTime := now, control := .receiving }
  | accepted (control : worker.control = .accepting) :
      Advance now worker { worker with lastActiveTime := now, control := .sampling true }
  | readStock (load : Nat) (control : worker.control = .readingStock load) :
      Advance now worker (worker.goto (.readingCooks load worker.stock []))
  | readCook (load : Nat) (stock : Stock) (statuses : List CookStatus)
      (control : worker.control = .readingCooks load stock statuses)
      (more : statuses.length < nCooks) :
      Advance now worker (worker.goto (.readingCooks load stock
        (statuses ++ [(worker.pool.cooks ⟨statuses.length, more⟩).status])))
  | build (load : Nat) (stock : Stock) (statuses : List CookStatus) (packets : List Packet)
      (control : worker.control = .readingCooks load stock statuses)
      (all : nCooks ≤ statuses.length)
      (built : sendStatusResponse load worker.pool.getCapacity stock statuses = some packets) :
      Advance now worker (worker.goto (.responding packets))
  | responded (control : worker.control = .responding []) :
      Advance now worker (worker.goto (.sampling true))
  | sample (running : Bool) (control : worker.control = .sampling running) :
      Advance now worker (worker.goto (.checking running now))
  | timeOut (running : Bool) (sampled : Nat) (control : worker.control = .checking running sampled)
      (idle : worker.isIdle = true) (elapsed : worker.lastActiveTime + kIdleTimeout ≤ sampled) :
      Advance now worker (worker.goto (.sleeping false (now + kPollInterval)))
  | idle (running : Bool) (sampled : Nat) (control : worker.control = .checking running sampled)
      (idle : worker.isIdle = true) (early : sampled < worker.lastActiveTime + kIdleTimeout) :
      Advance now worker (worker.goto (.sleeping running (now + kPollInterval)))
  | busy (running : Bool) (sampled : Nat) (control : worker.control = .checking running sampled)
      (busy : worker.isIdle = false) :
      Advance now worker { worker with
        lastActiveTime := sampled, control := .sleeping running (now + kPollInterval) }
  | wake (running : Bool) (wakeTime : Nat) (control : worker.control = .sleeping running wakeTime)
      (elapsed : wakeTime ≤ now) :
      Advance now worker (worker.goto (if running then .receiving else .stopping))

/-- Every step of a kitchen process is one of these. -/
inductive Transition (limit : Option Nat) (now : Nat) (site : Site (KitchenWorker nCooks)) :
    Label nCooks → Site (KitchenWorker nCooks) → Prop
  | advance (wake : Fin nCooks → Bool) (process : KitchenWorker nCooks)
      (moves : Advance now site.process process) :
      Transition limit now site (.main wake) { site with process }
  | pollEmpty (wake : Fin nCooks → Bool) (control : site.process.control = .receiving)
      (empty : site.orderQueue.receive = none) :
      Transition limit now site (.main wake)
        { site with process := site.process.goto (.sampling true) }
  | pollShutdown (wake : Fin nCooks → Bool) (packet : Packet) (orderQueue : Fifo Packet)
      (control : site.process.control = .receiving)
      (received : site.orderQueue.receive = some (packet, orderQueue))
      (shutdown : packet.type = .shutdown) :
      Transition limit now site (.main wake)
        { site with orderQueue, process := site.process.goto (.sampling false) }
  | poll (wake : Fin nCooks → Bool) (packet : Packet) (orderQueue : Fifo Packet)
      (control : site.process.control = .receiving)
      (received : site.orderQueue.receive = some (packet, orderQueue))
      (other : packet.type ≠ .shutdown) :
      Transition limit now site (.main wake)
        { site with orderQueue, process := site.process.goto (.handling packet) }
  | accept (wake : Fin nCooks → Bool) (packet : Packet) (ticket : Ticket) (pool : ThreadPool nCooks)
      (control : site.process.control = .handling packet) (pizza : packet.type = .pizza)
      (same : ticket.tag = packet.tag) (notifies : ThreadPool.NotifiesOne site.process.pool.threads wake)
      (added : site.process.pool.addPizza ticket wake = (true, pool)) :
      Transition limit now site (.main wake)
        { site with process := { site.process with pool, control := .accepting } }
  | refuse (wake : Fin nCooks → Bool) (packet : Packet)
      (control : site.process.control = .handling packet) (pizza : packet.type = .pizza)
      (full : site.process.pool.isFull = true) :
      Transition limit now site (.main wake)
        { site with process := site.process.goto (.refusing packet) }
  | request (wake : Fin nCooks → Bool) (packet : Packet)
      (control : site.process.control = .handling packet) (type : packet.type = .statusRequest) :
      Transition limit now site (.main wake)
        { site with process := site.process.goto (.readingStock site.process.pool.getLoad) }
  | ignore (wake : Fin nCooks → Bool) (packet : Packet)
      (control : site.process.control = .handling packet) (other : packet.type ≠ .pizza)
      (noRequest : packet.type ≠ .statusRequest) :
      Transition limit now site (.main wake)
        { site with process := site.process.goto (.sampling true) }
  | sendFull (wake : Fin nCooks → Bool) (packet : Packet)
      (control : site.process.control = .refusing packet)
      (room : hasRoom limit site.resultQueue.pending = true) :
      Transition limit now site (.main wake) { site with
        resultQueue := site.resultQueue.send
          { type := .full, pizza := packet.pizza, origin := packet.origin }
        process := site.process.goto (.sampling true) }
  | respond (wake : Fin nCooks → Bool) (packet : Packet) (rest : List Packet)
      (control : site.process.control = .responding (packet :: rest))
      (room : hasRoom limit site.resultQueue.pending = true) :
      Transition limit now site (.main wake) { site with
        resultQueue := site.resultQueue.send packet
        process := site.process.goto (.responding rest) }
  | stop (wake : Fin nCooks → Bool) (control : site.process.control = .stopping) :
      Transition limit now site (.main wake) { site with
        process := { site.process with pool := site.process.pool.stop, control := .notifying } }
  | notify (wake : Fin nCooks → Bool) (control : site.process.control = .notifying) :
      Transition limit now site (.main wake) { site with
        process := { site.process with pool := site.process.pool.notifyAll, control := .joining } }
  | join (wake : Fin nCooks → Bool) (control : site.process.control = .joining)
      (left : ∀ index, site.process.pool.threads index = .exited) :
      Transition limit now site (.main wake)
        { site with process := site.process.goto .closing }
  | close (wake : Fin nCooks → Bool) (control : site.process.control = .closing)
      (room : hasRoom limit site.resultQueue.pending = true) :
      Transition limit now site (.main wake) { site with
        resultQueue := site.resultQueue.send { type := .shutdown }
        process := site.process.goto .exited }
  | cook (index : Fin nCooks) (pool : ThreadPool nCooks)
      (worked : site.process.pool.workerLoop index = some pool)
      (other : ∀ ticket, site.process.pool.threads index ≠ .preparing ticket ∧
        site.process.pool.threads index ≠ .baking ticket) :
      Transition limit now site (.cook index)
        { site with process := { site.process with pool } }
  | consume (index : Fin nCooks) (ticket : Ticket) (pool : ThreadPool nCooks)
      (needed : List Ingredient) (position : site.process.pool.threads index = .preparing ticket)
      (worked : site.process.pool.workerLoop index = some pool)
      (listed : toIngredients ticket.recipe.ingredients = some needed)
      (available : site.process.stock.allAvailable needed = true) :
      Transition limit now site (.cook index) { site with
        process := { site.process with pool, stock := site.process.stock.consume needed } }
  | serve (index : Fin nCooks) (ticket : Ticket) (pool : ThreadPool nCooks)
      (position : site.process.pool.threads index = .baking ticket)
      (worked : site.process.pool.workerLoop index = some pool)
      (room : hasRoom limit site.resultQueue.pending = true) :
      Transition limit now site (.cook index) { site with
        resultQueue := site.resultQueue.send
          { type := .done, pizza := ticket.packed, origin := ticket.origin }
        process := { site.process with pool } }
  | wakeSpuriously (index : Fin nCooks) (pool : ThreadPool nCooks)
      (woken : site.process.pool.wakeSpuriously index = some pool) :
      Transition limit now site (.wakeSpuriously index)
        { site with process := { site.process with pool } }
  | regenerate (stays : site.process.hasExited = false) :
      Transition limit now site .regenerate { site with
        process := { site.process with stock := site.process.stock.regenerate } }

/-- A send succeeds only when the queue has room. -/
theorem sendResult_eq {State : Type} {site next : Site State} {limit : Option Nat} {packet : Packet}
    {process : State} (sent : site.sendResult limit packet process = some next) :
    hasRoom limit site.resultQueue.pending = true ∧
      next = { site with resultQueue := site.resultQueue.send packet, process } := by
  unfold Site.sendResult at sent
  split at sent <;> cases sent
  exact ⟨‹_›, rfl⟩

/-- The pool answers a packet with an accepted pizza, a refused pizza or nothing. -/
theorem transition_of_handlePacket {limit : Option Nat} {now : Nat} {wake : Fin nCooks → Bool}
    {site : Site (KitchenWorker nCooks)} {packet : Packet} {process : KitchenWorker nCooks}
    (control : site.process.control = .handling packet)
    (handled : site.process.handlePacket packet wake = some process) :
    Transition limit now site (.main wake) { site with process } := by
  unfold handlePacket at handled
  split at handled
  · rename_i type
    simp only [Option.bind_eq_bind, Option.bind_eq_some_iff] at handled
    obtain ⟨pizza, unpacked, recipe, created, handled⟩ := handled
    obtain ⟨other, known, sameType, sameSize⟩ := PizzaFactory.create_spec pizza.type pizza.size
    obtain rfl : recipe = other := Option.some.inj (created.symm.trans known)
    split at handled
    · rename_i notifies
      have same : Ticket.tag ⟨recipe, packet.origin⟩ = packet.tag := by
        simp only [Ticket.tag, Ticket.packed, sameType, sameSize, pack_of_unpack unpacked, Packet.tag]
      split at handled <;> rename_i pool added <;> cases handled
      · exact .accept wake packet _ pool control type same notifies added
      · refine .refuse wake packet control type ?_
        unfold ThreadPool.addPizza at added
        split at added
        · assumption
        · cases added
    · cases handled
  · rename_i type
    cases handled
    exact .request wake packet control type
  · rename_i notPizza noRequest
    cases handled
    exact .ignore wake packet control notPizza noRequest

/-- Each step of the main thread is a transition. -/
theorem transition_of_run {limit : Option Nat} {now : Nat} {wake : Fin nCooks → Bool}
    {site next : Site (KitchenWorker nCooks)} (taken : run limit now wake site = some next) :
    Transition limit now site (.main wake) next := by
  unfold run at taken
  simp only at taken
  split at taken
  case h_1 control =>
      cases taken
      exact .advance wake _ (.start control)
  case h_2 control =>
      split at taken
      · cases taken
        exact .pollEmpty wake control ‹_›
      · rename_i packet orderQueue received
        split at taken <;> cases taken
        · exact .pollShutdown wake packet orderQueue control received ‹_›
        · exact .poll wake packet orderQueue control received ‹_›
  case h_3 packet control =>
      obtain ⟨process, handled, rfl⟩ := Option.map_eq_some_iff.mp taken
      exact transition_of_handlePacket control handled
  case h_4 control =>
      cases taken
      exact .advance wake _ (.accepted control)
  case h_5 packet control =>
      obtain ⟨room, rfl⟩ := sendResult_eq taken
      exact .sendFull wake packet control room
  case h_6 load control =>
      cases taken
      exact .advance wake _ (.readStock load control)
  case h_7 load stock statuses control =>
      split at taken
      · rename_i more
        cases taken
        exact .advance wake _ (.readCook load stock statuses control more)
      · rename_i all
        obtain ⟨packets, built, rfl⟩ := Option.map_eq_some_iff.mp taken
        exact .advance wake _ (.build load stock statuses packets control (Nat.not_lt.mp all) built)
  case h_8 control =>
      cases taken
      exact .advance wake _ (.responded control)
  case h_9 packet rest control =>
      obtain ⟨room, rfl⟩ := sendResult_eq taken
      exact .respond wake packet rest control room
  case h_10 running control =>
      cases taken
      exact .advance wake _ (.sample running control)
  case h_11 running sampled control =>
      cases taken
      refine .advance wake _ ?_
      unfold checkIdle
      split
      · rename_i idle
        split
        · exact .timeOut running sampled control idle ‹_›
        · exact .idle running sampled control idle (Nat.not_le.mp ‹_›)
      · rename_i busy
        exact .busy running sampled control (Bool.eq_false_of_not_eq_true busy)
  case h_12 running wakeTime control =>
      split at taken <;> cases taken
      exact .advance wake _ (.wake running wakeTime control ‹_›)
  case h_13 control =>
      cases taken
      exact .stop wake control
  case h_14 control =>
      cases taken
      exact .notify wake control
  case h_15 control =>
      obtain ⟨process, reset, rfl⟩ := Option.map_eq_some_iff.mp taken
      unfold resetPool at reset
      split at reset <;> cases reset
      exact .join wake control ‹_›
  case h_16 control =>
      obtain ⟨room, rfl⟩ := sendResult_eq taken
      exact .close wake control room
  case h_17 => cases taken

/-- Each step of a cook is a transition. -/
theorem transition_of_cookPizza {limit : Option Nat} {now : Nat} {index : Fin nCooks}
    {site next : Site (KitchenWorker nCooks)} (taken : cookPizza limit index site = some next) :
    Transition limit now site (.cook index) next := by
  obtain ⟨pool, worked, taken⟩ := Option.bind_eq_some_iff.mp taken
  split at taken
  · rename_i ticket position
    obtain ⟨needed, listed, taken⟩ := Option.bind_eq_some_iff.mp taken
    split at taken <;> cases taken
    exact .consume index ticket pool needed position worked listed ‹_›
  · rename_i ticket position
    obtain ⟨room, rfl⟩ := sendResult_eq taken
    exact .serve index ticket pool position worked room
  · rename_i notPreparing notBaking
    cases taken
    exact .cook index pool worked fun ticket => ⟨notPreparing ticket, notBaking ticket⟩

/-- Each step of a kitchen process is a transition. -/
theorem transition_of_step {limit : Option Nat} {now : Nat}
    {site next : Site (KitchenWorker nCooks)} {label : Label nCooks}
    (taken : step limit now site label = some next) : Transition limit now site label next := by
  cases label with
  | main wake => exact transition_of_run taken
  | cook index => exact transition_of_cookPizza taken
  | wakeSpuriously index =>
      obtain ⟨pool, woken, rfl⟩ := Option.map_eq_some_iff.mp taken
      exact .wakeSpuriously index pool woken
  | regenerate =>
      simp only [step] at taken
      split at taken <;> cases taken
      rename_i stays
      exact .regenerate (Bool.eq_false_of_not_eq_true stays)

end Plazza.KitchenWorker
