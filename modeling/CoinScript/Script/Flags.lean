import CoinScript.Script.Fault

namespace CoinScript

inductive Flag
  | p2sh
  | strictEncoding
  | strictDer
  | lowS
  | nullDummy
  | sigPushOnly
  | minimalData
  | discourageNops
  | cleanStack
  | checkLockTime
  | checkSequence
  | minimalIf
  | nullFail
  | compressedKeys
  | forkId
  | replayProtection
  | dataSignatures
  | noSegwitRecovery
  | schnorrMultisig
  | reverseBytes
  | p2sh32
deriving DecidableEq

namespace Flag

def all : List Flag :=
  [.p2sh, .strictEncoding, .strictDer, .lowS, .nullDummy, .sigPushOnly, .minimalData,
   .discourageNops, .cleanStack, .checkLockTime, .checkSequence, .minimalIf, .nullFail,
   .compressedKeys, .forkId, .replayProtection, .dataSignatures, .noSegwitRecovery,
   .schnorrMultisig, .reverseBytes, .p2sh32]

def bit : Flag → Nat
  | .p2sh => 0
  | .strictEncoding => 1
  | .strictDer => 2
  | .lowS => 3
  | .nullDummy => 4
  | .sigPushOnly => 5
  | .minimalData => 6
  | .discourageNops => 7
  | .cleanStack => 8
  | .checkLockTime => 9
  | .checkSequence => 10
  | .minimalIf => 13
  | .nullFail => 14
  | .compressedKeys => 15
  | .forkId => 16
  | .replayProtection => 17
  | .dataSignatures => 18
  | .noSegwitRecovery => 20
  | .schnorrMultisig => 21
  | .reverseBytes => 23
  | .p2sh32 => 26

def name : Flag → String
  | .p2sh => "P2SH"
  | .strictEncoding => "STRICTENC"
  | .strictDer => "DERSIG"
  | .lowS => "LOW_S"
  | .nullDummy => "NULLDUMMY"
  | .sigPushOnly => "SIGPUSHONLY"
  | .minimalData => "MINIMALDATA"
  | .discourageNops => "DISCOURAGE_UPGRADABLE_NOPS"
  | .cleanStack => "CLEANSTACK"
  | .checkLockTime => "CHECKLOCKTIMEVERIFY"
  | .checkSequence => "CHECKSEQUENCEVERIFY"
  | .minimalIf => "MINIMALIF"
  | .nullFail => "NULLFAIL"
  | .compressedKeys => "COMPRESSED_PUBKEYTYPE"
  | .forkId => "SIGHASH_FORKID"
  | .replayProtection => "REPLAY_PROTECTION"
  | .dataSignatures => "CHECKDATASIG"
  | .noSegwitRecovery => "DISALLOW_SEGWIT_RECOVERY"
  | .schnorrMultisig => "SCHNORR_MULTISIG"
  | .reverseBytes => "REVERSEBYTES"
  | .p2sh32 => "P2SH_32"

def ofName? (word : List Char) : Option Flag := all.find? fun f => f.name.toList == word

theorem bit_lt (f : Flag) : f.bit < 32 := by cases f <;> decide

end Flag

/-- A mask of rules, which may also hold bits that name none. -/
structure Flags where
  bits : UInt32
deriving DecidableEq

namespace Flags

def none : Flags := ⟨0⟩

def has (F : Flags) (f : Flag) : Bool := F.bits.toNat.testBit f.bit

def union (F G : Flags) : Flags := ⟨F.bits ||| G.bits⟩

def inter (F G : Flags) : Flags := ⟨F.bits &&& G.bits⟩

def complement (F : Flags) : Flags := ⟨~~~F.bits⟩

def without (F G : Flags) : Flags := F.inter G.complement

/-- Every bit of the second set is in the first. -/
def covers (F G : Flags) : Bool := F.bits &&& G.bits == G.bits

def only (f : Flag) : Flags := ⟨UInt32.ofNat (2 ^ f.bit)⟩

def ofList (fs : List Flag) : Flags := (fs.map only).foldl union none

/-- Names with commas between them; `NONE` stands for a set without named flags. -/
def render (F : Flags) : String :=
  match Flag.all.filter F.has with
  | [] => "NONE"
  | fs => ",".intercalate (fs.map Flag.name)

def readNames : List (List Char) → Except ScriptFault Flags
  | [] => .ok none
  | word :: words =>
    if word = "NONE".toList then readNames words
    else
      match Flag.ofName? word with
      | some f => (readNames words).map (only f).union
      | Option.none => .error (.unknownFlag (String.ofList word))

/-- Reads names with commas between them; blanks around names and empty places are ignored. -/
def read (text : String) : Except ScriptFault Flags :=
  readNames (((Text.splitAt (· == ',') text.toList).map Text.trim).filter (! ·.isEmpty))

theorem has_union (F G : Flags) (f : Flag) : (F.union G).has f = (F.has f || G.has f) := by
  simp [has, union]

theorem has_without (F G : Flags) (f : Flag) : (F.without G).has f = (F.has f && !G.has f) := by
  have h := f.bit_lt
  simp only [has, without, inter, complement, UInt32.toNat_and, Nat.testBit_and, UInt32.toNat_not]
  congr 1
  have e : UInt32.size - 1 - G.bits.toNat = 2 ^ 32 - (G.bits.toNat + 1) := by
    have := G.bits.toNat_lt
    simp only [UInt32.size]
    omega
  rw [e, Nat.testBit_two_pow_sub_succ G.bits.toNat_lt]
  simp [h]

@[simp] theorem has_none (f : Flag) : none.has f = false := by
  simp [has, none]

theorem has_only (f g : Flag) : (only f).has g = decide (f = g) := by
  cases f <;> cases g <;> rfl

end Flags

end CoinScript
