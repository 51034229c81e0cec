import CoinScript.Engine.Fault
import CoinScript.Engine.HashType
import CoinScript.Script.Flags
import CoinScript.Signature.Der
import CoinScript.Signature.Schnorr

namespace CoinScript.Encoding

/-- Fails with `fault` unless the condition holds. -/
def demand (condition : Bool) (fault : Fault) : Except Fault Unit :=
  if condition then .ok () else .error fault

def needsDer (flags : Flags) : Bool :=
  flags.has .strictDer || flags.has .lowS || flags.has .strictEncoding

/-- A signature of the Schnorr length, given with its hash type where it carries one. -/
def checkSchnorr (flags : Flags) (hashType : Option HashType) : Except Fault Unit :=
  match hashType with
  | none => .ok ()
  | some t =>
    if flags.has .strictEncoding then do
      demand t.isDefined .undefinedHashType
      demand (!flags.has .forkId || t.hasForkId) .forkIdMissing
    else .ok ()

/-- A signature of any other length. The hash type is looked at only where `s` is not. -/
def checkDer (flags : Flags) (body : Bytes) (hashType : Option HashType) : Except Fault Unit := do
  demand (!needsDer flags || Der.isStrict body) .derNotStrict
  if flags.has .lowS then demand (Der.hasLowS body) .highS
  else
    match hashType with
    | none => .ok ()
    | some t => demand (!flags.has .strictEncoding || t.isDefined) .undefinedHashType

/-- A transaction signature, whose last byte is its hash type. -/
def checkSignature (flags : Flags) (sig : Bytes) : Except Fault Unit :=
  if sig = [] then .ok ()
  else if sig.length = Schnorr.signatureLength + 1 then
    checkSchnorr flags (some (.ofSignature sig))
  else checkDer flags sig.dropLast (some (.ofSignature sig))

/-- A signature of plain data, which has no hash type. -/
def checkDataSignature (flags : Flags) (sig : Bytes) : Except Fault Unit :=
  if sig = [] then .ok ()
  else if sig.length = Schnorr.signatureLength then checkSchnorr flags none
  else checkDer flags sig none

/-- A signature in a multisignature that matches in order: the Schnorr length is refused. -/
def checkOrderedSignature (flags : Flags) (sig : Bytes) : Except Fault Unit :=
  if sig.length = Schnorr.signatureLength + 1 then .error .schnorrLengthInMultisig
  else checkSignature flags sig

/-- A signature in a multisignature with checkbits: only the Schnorr length is admitted. -/
def checkSelectedSignature (flags : Flags) (sig : Bytes) : Except Fault Unit :=
  if sig.length = Schnorr.signatureLength + 1 then checkSignature flags sig
  else .error .notSchnorr

def isCompressed : Bytes → Bool
  | tag :: rest => (tag == 2 || tag == 3) && rest.length == 32
  | [] => false

def isUncompressed : Bytes → Bool
  | tag :: rest => tag == 4 && rest.length == 64
  | [] => false

def checkKey (flags : Flags) (key : Bytes) : Except Fault Unit := do
  demand (!flags.has .strictEncoding || isCompressed key || isUncompressed key) .unsupportedKey
  demand (!flags.has .compressedKeys || isCompressed key) .keyNotCompressed

end CoinScript.Encoding
