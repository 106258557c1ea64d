import DirectCall.ConstantPool.Entry
import DirectCall.Insn.Text
import DirectCall.Text.ModifiedUtf8

/-!
# Faults

Every way in which reading, analysing or writing can fail, as one type. A fault may lie within a
context; its message names the contexts from the outside in and the cause last.
-/

namespace DirectCall

/-- What was being done when a fault arose. -/
inductive Context where
  | readingMagic
  | readingPool
  | readingFields
  | readingMethods
  | readingClassAttributes
  | readingExceptions (className : String)
  | utf8Constant (index : Nat)
  | decodingOpcode (opcode : UInt8) (offset : Nat)
  | interpreting (insn : Insn) (position : Nat)
  | mergingInto (position : Nat)
  | mergingIntoHandler (position : Nat)
  | decodingMethod (name descriptor : String)
  | analyzingMethod (name descriptor : String)
  | encodingMethod (name descriptor : String)
  | writingClass (name : String)
  deriving DecidableEq, Repr

inductive Fault where
  | within (context : Context) (cause : Fault)
  -- Reading bytes
  | unexpectedEnd (wanted offset : Nat)
  | badMagic (magic : Nat)
  | trailingBytes (offset : Nat)
  -- Constant pools
  | modifiedUtf8 (cause : Text.ModifiedUtf8.DecodeError)
  | unknownTag (tag : UInt8) (index : Nat)
  | poolOverrun (count : Nat)
  | poolTooLong
  | utf8TooLong
  | badPoolIndex (index : UInt16)
  | wrongEntry (index : UInt16) (role : ConstantPool.Role) (entry : ConstantPool.Entry)
  | unsynthesizable (constant : Constant)
  | poolFull
  -- Tables and code
  | tableTooLong (length : Nat)
  | attributeTooLong
  | codeLength (length : Nat)
  | noInsnBoundary (offset : Nat)
  | negativeTarget
  | switchRange (high low : Int32)
  | negativePairCount (pairs : Int32)
  | badWideOpcode (opcode : UInt8)
  | unknownOpcode (opcode : UInt8)
  | codeTooLong
  | branchTooFar (offset : Nat)
  | lostLabel
  | freshInvokeDynamic
  | tooManyArguments
  -- Analysis
  | descriptor (text : String) (cause : DescriptorError)
  | fallsOffEnd
  | strangeLabel
  | localOutside (var : Nat) (maxLocals : Nat)
  | stackUnderflow
  | stackHeights (mine theirs : Nat)
  | malformedIinc (insn : Insn)
  | malformedInvoke (insn : Insn)
  | malformedMultiNewArray (insn : Insn)
  | subroutine
  | unsupportedOpcode (opcode : UInt8)
  | notLocalAccess (insn : Insn)
  | noCode (name signature : String)
  | unplacedTarget (id : NodeId)
  | unreachableTarget (position : Nat)
  | stackTooDeep
  | tooManyLocals
  | unplacedAllocation (id : NodeId)
  | unsettled
  -- Classes
  | namelessClass
  deriving DecidableEq, Repr

namespace Text.ModifiedUtf8.DecodeError

def message : DecodeError → String
  | rawNul => "raw NUL byte in modified utf8"
  | truncated => "truncated modified utf8 sequence"
  | badLead byte => "invalid modified utf8 lead byte " ++ Shown.byte byte
  | loneSurrogate => "unpaired surrogate in modified utf8: invalid utf-16: lone surrogate found"

end Text.ModifiedUtf8.DecodeError

namespace Context

def message : Context → String
  | readingMagic => "failed to read class file magic"
  | readingPool => "failed to read constant pool"
  | readingFields => "failed to read fields"
  | readingMethods => "failed to read methods"
  | readingClassAttributes => "failed to read class attributes"
  | readingExceptions className => "failed to read exceptions in " ++ className
  | utf8Constant index => s!"invalid utf8 constant #{index}"
  | decodingOpcode opcode offset =>
    "failed to decode opcode " ++ Text.Shown.byte opcode ++ s!" at {offset}"
  | interpreting insn position => "failed to interpret " ++ insn.text ++ s!" at position {position}"
  | mergingInto position => s!"failed to merge into position {position}"
  | mergingIntoHandler position => s!"failed to merge into handler at {position}"
  | decodingMethod name descriptor => "failed to decode " ++ name ++ descriptor
  | analyzingMethod name descriptor => "failed to analyze " ++ name ++ descriptor
  | encodingMethod name descriptor => "failed to encode " ++ name ++ descriptor
  | writingClass name => "failed to write " ++ name

end Context

namespace Fault

/-- Cause of a number that does not fit its field. -/
def tooLarge : String := ": number too large to fit in target type"

def message : Fault → String
  | within context cause => context.message ++ ": " ++ cause.message
  | unexpectedEnd wanted offset => s!"unexpected end of data reading {wanted} bytes at offset {offset}"
  | badMagic magic => "bad class file magic 0x" ++ Text.Quoted.hex 8 magic
  | trailingBytes offset => s!"trailing bytes after class file at offset {offset}"
  | modifiedUtf8 cause => cause.message
  | unknownTag tag index => s!"unknown constant pool tag {tag} at #{index}"
  | poolOverrun count => s!"constant pool overruns its declared count {count}"
  | poolTooLong => "constant pool exceeds 65535 entries"
  | utf8TooLong => "utf8 constant longer than 65535 bytes"
  | badPoolIndex index => s!"invalid constant pool index #{index}"
  | wrongEntry index role entry => s!"constant #{index} is not " ++ role.text ++ ": " ++ entry.text
  | unsynthesizable constant => "cannot synthesize " ++ constant.text ++ " constants"
  | poolFull => "constant pool is full"
  | tableTooLong length => s!"table of {length} entries too large" ++ tooLarge
  | attributeTooLong => "attribute too large" ++ tooLarge
  | codeLength length => s!"code length {length} out of range"
  | noInsnBoundary offset => s!"offset {offset} is not an instruction boundary"
  | negativeTarget => "negative jump target: number too small to fit in target type"
  | switchRange high low => s!"tableswitch high {high.toInt} below low {low.toInt}"
  | negativePairCount pairs => s!"negative lookupswitch pair count {pairs.toInt}"
  | badWideOpcode opcode => "invalid wide opcode " ++ Text.Shown.byte opcode
  | unknownOpcode opcode => "unknown opcode " ++ Text.Shown.byte opcode
  | codeTooLong => "method code grows past 65535 bytes"
  | branchTooFar offset => s!"conditional branch at {offset} cannot reach its target"
  | lostLabel => "reference to a label that is no longer in the method"
  | freshInvokeDynamic => "invokedynamic cannot be synthesized"
  | tooManyArguments => "too many interface call arguments" ++ tooLarge
  | descriptor text cause => cause.message text
  | fallsOffEnd => "execution can fall off the end of the code"
  | strangeLabel => "label is not part of the method body"
  | localOutside var maxLocals => s!"local {var} outside max_locals {maxLocals}"
  | stackUnderflow => "operand stack underflow"
  | stackHeights mine theirs => s!"incompatible stack heights {mine} and {theirs}"
  | malformedIinc insn => "malformed iinc " ++ insn.text
  | malformedInvoke insn => "malformed invoke " ++ insn.text
  | malformedMultiNewArray insn => "malformed multianewarray " ++ insn.text
  | subroutine => "subroutines (jsr/ret) are not supported"
  | unsupportedOpcode opcode => "unsupported opcode " ++ Text.Shown.byte opcode
  | notLocalAccess insn => "expected a local variable instruction, got " ++ insn.text
  | noCode name signature => "method " ++ name ++ signature ++ " has no code"
  | unplacedTarget id => "branch target " ++ id.text ++ " is not in the method"
  | unreachableTarget position => s!"unreachable branch target at position {position}"
  | stackTooDeep => "operand stack deeper than 65535 slots" ++ tooLarge
  | tooManyLocals => "more than 65535 local slots" ++ tooLarge
  | unplacedAllocation id => "allocation " ++ id.text ++ " is not in the method"
  | unsettled => "frames do not settle"
  | namelessClass => "class without a name"

end Fault

/-- Names what was being done when `result` failed. -/
def during (context : Context) (result : Except Fault α) : Except Fault α :=
  result.mapError (.within context)

end DirectCall
