import Plazza.Proof.Status.Report

namespace Plazza
open Plazza.Foundation

/-- The main thread is about to send a packet on the result queue. -/
def Control.sends : Control → Bool
  | refusing _ | responding (_ :: _) | closing => true
  | _ => false

/-- The main thread waits for the workers of the pool. -/
def Control.joins : Control → Bool
  | joining => true
  | _ => false

/-- The cook is about to send its done packet. -/
def Position.sends : Position → Bool
  | baking _ => true
  | _ => false

namespace KitchenWorker

variable {nCooks : Nat}

/-- The result queue is full and blocks the main thread, or a cook that the main thread waits for. -/
def Blocked (limit : Option Nat) (site : Site (KitchenWorker nCooks)) : Prop :=
  hasRoom limit site.resultQueue.pending = false ∧
    (site.process.control.sends = true ∨ site.process.control.joins = true ∧
      ∃ index, (site.process.pool.threads index).sends = true)

instance decidableBlocked (limit : Option Nat) (site : Site (KitchenWorker nCooks)) :
    Decidable (Blocked limit site) := inferInstanceAs (Decidable (_ ∧ _))

/-- A blocked process has not exited. -/
theorem Blocked.running {limit : Option Nat} {site : Site (KitchenWorker nCooks)}
    (blocked : Blocked limit site) : site.process.hasExited = false := by
  unfold hasExited
  split
  · rename_i control
    obtain ⟨_, sends | ⟨joins, _⟩⟩ := blocked
    · rw [control] at sends
      cases sends
    · rw [control] at joins
      cases joins
  · rfl

/-- No step of a blocked process frees it. -/
theorem Blocked.step {limit : Option Nat} {now : Nat} {site next : Site (KitchenWorker nCooks)}
    {label : Label nCooks} (blocked : Blocked limit site)
    (moved : Transition limit now site label next) : Blocked limit next := by
  obtain ⟨full, stuck⟩ := blocked
  have noRoom : hasRoom limit site.resultQueue.pending ≠ true := by simp [full]
  have main : ∀ control, site.process.control = control → control.sends = false →
      control.joins = false → False := by
    rintro control rfl sends joins
    simp [sends, joins] at stuck
  have worker : ∀ {index : Fin nCooks} {pool : ThreadPool nCooks},
      site.process.pool.workerLoop index = some pool →
      (site.process.pool.threads index).sends = false →
      (site.process.control.sends = true ∨ site.process.control.joins = true ∧
        ∃ other, (pool.threads other).sends = true) := by
    intro index pool worked free
    refine stuck.imp_right fun ⟨joins, other, sends⟩ => ⟨joins, other, ?_⟩
    have apart : other ≠ index := by
      rintro rfl
      rw [free] at sends
      cases sends
    rw [ThreadPool.threads_workerLoop worked apart]
    exact sends
  cases moved with
  | advance wake process moves =>
      cases moves <;> exact (main _ ‹_› rfl rfl).elim
  | pollEmpty _ control | pollShutdown _ _ _ control | poll _ _ _ control
  | accept _ _ _ _ control | refuse _ _ control | request _ _ control | ignore _ _ control
  | stop _ control | notify _ control => exact (main _ control rfl rfl).elim
  | sendFull _ _ _ room | respond _ _ _ _ room | close _ _ room | serve _ _ _ _ _ room =>
      exact absurd room noRoom
  | join wake control left =>
      obtain sends | ⟨_, index, sends⟩ := stuck
      · rw [control] at sends
        cases sends
      · rw [left index] at sends
        cases sends
  | cook index pool worked other =>
      refine ⟨full, worker worked ?_⟩
      cases position : site.process.pool.threads index with
      | baking ticket => exact absurd position (other ticket).2
      | _ => rfl
  | consume index ticket pool needed position worked =>
      exact ⟨full, worker worked (by rw [position]; rfl)⟩
  | wakeSpuriously index pool woken =>
      refine ⟨full, stuck.imp_right fun ⟨joins, other, sends⟩ => ⟨joins, other, ?_⟩⟩
      obtain ⟨sleeps, rfl⟩ := waiting_of_wakeSpuriously woken
      have apart : other ≠ index := by
        rintro rfl
        rw [sleeps] at sends
        cases sends
      exact (congrArg Position.sends (Function.update_of_ne apart _ _)).trans sends
  | regenerate => exact ⟨full, stuck⟩

end KitchenWorker

namespace Pizzeria

variable {nCooks : Nat} {limit : Option Nat}

/-- The shutdown of the reception waits for a process that a full result queue blocks. -/
def Deadlocked (pizzeria : Pizzeria (KitchenWorker.process nCooks limit)) : Prop :=
  ∃ index kitchen, pizzeria.call = .awaiting index ∧ pizzeria.kitchens[index]? = some kitchen ∧
    KitchenWorker.Blocked limit (pizzeria.sites kitchen.id)

/-- A deadlock never ends. -/
theorem Deadlocked.step {pizzeria next : Pizzeria (KitchenWorker.process nCooks limit)}
    {label : PizzeriaLabel (KitchenWorker.process nCooks limit)}
    (deadlocked : pizzeria.Deadlocked) (moved : Transition nCooks limit pizzeria label next) :
    next.Deadlocked := by
  obtain ⟨index, kitchen, awaits, found, blocked⟩ := deadlocked
  have reaps : ∀ {action : Action} {call : Call}, pizzeria.next = some (action, call) →
      action = .apply index .reap := by
    intro action call chosen
    rw [Pizzeria.next, awaits] at chosen
    cases chosen
    rfl
  cases moved with
  | order _ _ _ idle | status idle | poll idle | close idle =>
      rw [idle] at awaits
      cases awaits
  | skip _ chosen | erase _ chosen | spawn _ chosen | report _ _ chosen | destroy _ chosen =>
      cases reaps chosen
  | apply position operation call handle outcome chosen here effect =>
      cases reaps chosen
      obtain rfl := Option.some.inj (found.symm.trans here)
      cases effect with
      | reap exits =>
          have stays := blocked.running
          change KitchenWorker.hasExited _ = true at exits
          rw [stays] at exits
          cases exits
  | kitchen id label site spawned taken =>
      refine ⟨index, kitchen, awaits, found, ?_⟩
      by_cases same : kitchen.id = id
      · subst same
        simp only [Function.update_self]
        exact blocked.step (KitchenWorker.transition_of_step taken)
      · simp only [Function.update_of_ne same]
        exact blocked
  | elapse => exact ⟨index, kitchen, awaits, found, blocked⟩

end Pizzeria

end Plazza
