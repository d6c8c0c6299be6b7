import JavaClass.Pool.Scan

/-!
# Writing constants

The layout of a constant from the writer's side: its tag byte, and then its payload with every
number most significant byte first. Main statement: what is written for a constant whose lengths
fit is read back as that constant, whatever comes after it, and nothing of that is touched.
-/

namespace JavaClass

namespace RawConstant

def payloadBytes : RawConstant → Bytes
  | utf8 bytes => Bytes.ofNat 2 bytes.length ++ bytes
  | integer value => Bytes.ofNat 4 value.toUInt32.toNat
  | long value => Bytes.ofNat 8 value.toUInt64.toNat
  | string text => Bytes.ofNat 2 text.toNat
  | classRef name => Bytes.ofNat 2 name.toNat
  | nameAndType name descriptor => Bytes.ofNat 2 name.toNat ++ Bytes.ofNat 2 descriptor.toNat
  | member _ owner description =>
    Bytes.ofNat 2 owner.toNat ++ Bytes.ofNat 2 description.toNat
  | unsupported _ payload => payload

def encode (c : RawConstant) : Bytes := c.tag.byte :: c.payloadBytes

/-- Whether a constant can be written: the length of a string has to fit its 16 bits, and a payload
that is not interpreted has to have the size that its kind has. -/
def Fits : RawConstant → Prop
  | utf8 bytes => bytes.length < 0x10000
  | unsupported kind payload => payload.length = kind.payloadSize
  | _ => True

theorem payload_payloadBytes {c : RawConstant} (h : c.Fits) (rest : Bytes) :
    payload c.tag (c.payloadBytes ++ rest) = .ok c rest := by
  cases c with
  | utf8 bytes =>
    have hlength : bytes.length % 65536 = bytes.length := Nat.mod_eq_of_lt h
    simp [payload, payloadBytes, tag, bind, EStateM.bind, Functor.map, EStateM.map,
      Reader.u16_ofNat, hlength, Reader.take_append]
  | unsupported kind data =>
    have htake := Reader.take_append data rest
    rw [show data.length = kind.payloadSize from h] at htake
    simp [payload, payloadBytes, tag, Functor.map, EStateM.map, htake]
  | _ =>
    simp [payload, payloadBytes, tag, bind, EStateM.bind, Functor.map, EStateM.map, pure,
      EStateM.pure, Reader.u16_ofNat, Reader.i32_toNat, Reader.i64_toNat]

theorem decode_encode {c : RawConstant} (h : c.Fits) (index : UInt16) (rest : Bytes) :
    decode index (c.encode ++ rest) = .ok c rest := by
  simp [decode, encode, bind, EStateM.bind, monadLift, MonadLift.monadLift, liftM,
    EStateM.adaptExcept, Reader.u8_cons, payload_payloadBytes h]

end RawConstant

/-- The bytes of the constants of a pool, in the order of their indices. -/
def RawPool.encode (table : RawPool) : Bytes :=
  table.toList.flatMap fun slot => slot.elim [] RawConstant.encode

/-- The bytes of a pool that has been resolved. The strings that were looked up are not written. -/
def Pool.encode (pool : Pool) : Bytes :=
  pool.entries.flatMap fun (_, c) => c.raw.encode

end JavaClass
