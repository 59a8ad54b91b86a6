import Shadesmar.Rpc.Channel

namespace Shadesmar.Rpc

open Library Shadesmar.Memory

/-- A callback that is a pure function of the request: what it returns, and the response
it leaves in `*resp`, whose buffer has the size it announces. -/
structure Callback where
  run : Memblock → Bool × Memblock
  filled : ∀ req, (run req).2.Filled

namespace Callback

/-- What `process` hands to `write_server`: an empty block when the callback fails. -/
def answer (cb : Callback) (req : Memblock) : Memblock :=
  if (cb.run req).1 then (cb.run req).2 else .null

theorem filled_answer (cb : Callback) (req : Memblock) : (cb.answer req).Filled := by
  unfold answer
  split_ifs
  · exact cb.filled req
  · rfl

def echo : Callback := ⟨fun req => (true, .ofData req.bytes), fun _ => Memblock.filled_ofData _⟩

end Callback

def process (cb : Callback) (c : Channel) (pos : Nat) : Checked (Bool × Channel) :=
  match c.readServer pos with
  | none => .ok (false, c)
  | some req => c.writeServer (cb.answer req) pos

end Shadesmar.Rpc
