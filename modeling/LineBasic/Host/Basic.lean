import LineBasic.Error

namespace LineBasic

/-- What moves the bytes of a session. Line editing, echo and layout are not its work. A failed
operation may leave the host changed. -/
class Host (σ : Type) where
  /-- Waits for a byte. -/
  read : EStateM IoError σ UInt8
  /-- Whether a byte can be read without waiting. -/
  poll : EStateM IoError σ Bool
  write : UInt8 → EStateM IoError σ Unit

end LineBasic
