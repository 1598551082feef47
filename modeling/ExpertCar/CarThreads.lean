import ExpertCar.Kernel

/-!
# The threads of the car

Their priorities and time slices. The kernel starts the main, timer and idle threads;
the main thread then starts the shell and the threads of the application, and ends.
-/
namespace ExpertCar.Kernel

inductive CarThread where
  | main | timer | tidle0 | tshell | aht10 | dht11 | hardware | key | ps2 | motor | duoji
  deriving DecidableEq, Repr

def carThread : CarThread → Thread
  | .main => Thread.create ⟨10, by decide⟩ 20#32
  | .timer => Thread.create ⟨4, by decide⟩ 10#32
  | .tidle0 => Thread.create ⟨31, by decide⟩ 32#32
  | .tshell => Thread.create ⟨20, by decide⟩ 10#32
  | .aht10 => Thread.create ⟨10, by decide⟩ 10#32
  | .dht11 => Thread.create ⟨7, by decide⟩ 5#32
  | .hardware => Thread.create ⟨7, by decide⟩ 5#32
  | .key => Thread.create ⟨7, by decide⟩ 5#32
  | .ps2 => Thread.create ⟨8, by decide⟩ 5#32
  | .motor => Thread.create ⟨9, by decide⟩ 400#32
  | .duoji => Thread.create ⟨10, by decide⟩ 40#32

theorem carThread_create (t : CarThread) :
    ∃ priority tick, carThread t = Thread.create priority tick := by
  cases t <;> exact ⟨_, _, rfl⟩

end ExpertCar.Kernel
