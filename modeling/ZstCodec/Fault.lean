/-! # Faults of the codec

What can go wrong inside the codec is one of the causes below. The wording lives in `Fault.message` alone. -/

namespace ZstCodec

inductive Fault where
  | generic
  | unknownFrame
  | unsupportedFrameParameter
  | windowTooLarge
  | corrupt
  | checksumMismatch
  | literalsHeaderWrong
  | parameterOutOfBound
  | parameterUnsupported
  | memory
  | wrongStage
  | tableLogTooLarge
  | maxSymbolTooLarge
  | maxSymbolTooSmall
  | dictionaryCorrupted
  | dictionaryMismatch
  | dictionaryCreationFailed
  | outputTooSmall
  | sourceSizeWrong
  | noProgressOutputFull
  | noProgressInputEmpty
  deriving DecidableEq, Repr, Inhabited

def Fault.message : Fault → String
  | .generic => "Error (generic)"
  | .unknownFrame => "Unknown frame descriptor"
  | .unsupportedFrameParameter => "Unsupported frame parameter"
  | .windowTooLarge => "Frame requires too much memory for decoding"
  | .corrupt => "Data corruption detected"
  | .checksumMismatch => "Restored data doesn't match checksum"
  | .literalsHeaderWrong => "Header of Literals' block doesn't respect format specification"
  | .parameterOutOfBound => "Parameter is out of bound"
  | .parameterUnsupported => "Unsupported parameter"
  | .memory => "Allocation error : not enough memory"
  | .wrongStage => "Operation not authorized at current processing stage"
  | .tableLogTooLarge => "tableLog requires too much memory : unsupported"
  | .maxSymbolTooLarge => "Unsupported max Symbol Value : too large"
  | .maxSymbolTooSmall => "Specified maxSymbolValue is too small"
  | .dictionaryCorrupted => "Dictionary is corrupted"
  | .dictionaryMismatch => "Dictionary mismatch"
  | .dictionaryCreationFailed => "Cannot create Dictionary from provided samples"
  | .outputTooSmall => "Destination buffer is too small"
  | .sourceSizeWrong => "Src size is incorrect"
  | .noProgressOutputFull =>
    "Operation made no progress over multiple calls, due to output buffer being full"
  | .noProgressInputEmpty =>
    "Operation made no progress over multiple calls, due to input being empty"

/-- What a call of a codec has done: how far the input is read, what was given out, and how many bytes the codec still has
to give or expects next. -/
structure Outcome where
  pos : Nat
  out : ByteArray
  result : Except Fault Nat

end ZstCodec
