import Plazza.Construction.Pizza
import Plazza.Construction.IngredientStock

namespace Plazza

inductive MessageType where
  | pizza
  | done
  | statusRequest
  | statusReply
  | ready
  | shutdown
  | full
  | cookStatus
  deriving DecidableEq, Repr

structure PackedCook where
  id : UInt8
  state : UInt8
  pizzaType : UInt8
  pizzaSize : UInt8
  deriving DecidableEq

structure PackedStock where
  quantities : Vector UInt32 9
  deriving DecidableEq

/-- The last field is a history variable for the order of a pizza: it is not on the wire. -/
structure Packet where
  type : MessageType
  pizza : PackedPizza := ⟨(0, 0)⟩
  load : UInt8 := 0
  capacity : UInt8 := 0
  nCooks : UInt8 := 0
  stock : PackedStock := ⟨Vector.replicate 9 0⟩
  cook : PackedCook := ⟨0, 0, 0, 0⟩
  origin : Int := 0
  deriving DecidableEq

/-- A kitchen answers a pizza packet with a done or a full packet. -/
def Packet.isAnswer (packet : Packet) : Bool := packet.type = .done || packet.type = .full

def Packet.isPizza (packet : Packet) : Bool := packet.type = .pizza

/-- The tag names a pizza by its wire form and its order. -/
def Packet.tag (packet : Packet) : PackedPizza × Int := (packet.pizza, packet.origin)

/-- A queue without a limit always has room and a full queue blocks its sender. -/
def hasRoom (limit : Option Nat) (queue : List Packet) : Bool :=
  match limit with
  | none => true
  | some packets => queue.length < packets

end Plazza
