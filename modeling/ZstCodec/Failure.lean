import ZstCodec.Fault

/-! # Failures of the interface

What a user sees is a `Failure`: a `Fault` of the codec with what was being done, or a misuse of the interface. Failures
are told apart by their `kind`; the wording lives in `Failure.message` alone. -/

namespace ZstCodec

/-- What was being done when the codec failed. -/
inductive Doing where
  | compressing
  | compressingStream
  | endingStream
  | decompressing
  | decompressingStream
  | decompressingObject
  | settingParameter
  | settingWindow
  | settingFormat
  | readingHeaderSize
  | readingParameters
  | training
  | link (i : Nat)
  | item (i : Nat)
  | compressingItem (i : Nat)
  deriving DecidableEq, Repr, Inhabited

def Doing.text : Doing → String
  | .compressing => "cannot compress: "
  | .compressingStream => "zstd compress error: "
  | .endingStream => "error ending compression stream: "
  | .decompressing => "decompression error: "
  | .decompressingStream => "zstd decompress error: "
  | .decompressingObject => "zstd decompressor error: "
  | .settingParameter => "unable to set compression context parameter: "
  | .settingWindow => "unable to set max window size: "
  | .settingFormat => "unable to set decoding format: "
  | .readingHeaderSize => "could not determine frame header size: "
  | .readingParameters => "cannot get frame parameters: "
  | .training => "cannot train dict: "
  | .link i => s!"could not decompress chunk {i}: "
  | .item i => s!"error decompressing item {i}: "
  | .compressingItem i => s!"error compressing item {i}: "

/-- How users tell failures apart. -/
inductive FailureKind where
  | codec | value | type | overflow | index | memory | assertion | noAttribute
  | device
  | unsupported | notImplemented
  | fileNotFound | fileExists | directory | notDirectory
  | undecodable | unencodable | unknownEncoding
  | noObject
  | plain
  | deflate
  | missingModule | badImport
  | divisionByZero
  deriving DecidableEq, Repr

inductive Failure where
  -- The codec
  | codec (doing : Doing) (fault : Fault)
  | codecPair (doing : Doing) (fault : Fault)
  | partialFlush
  | contentSizeError
  | contentSizeUndetermined
  | contentSizeMissing
  | headerTooShort (need : Nat)
  | frameIncomplete
  | contentShort (expected : Nat)
  | extraData (n : Nat)
  | acrossFramesUnsupported
  | linkIncomplete (i : Nat)
  | itemSize (i got expected : Nat)
  | itemNoSpace (i : Nat)
  | precomputeFailed
  | dictionaryFailed
  | objectReused
  | compressorFinished
  | objectFinished
  | chunkerBusy
  | chunkerFinished (what : String)
  | chunkerPending (what : String)
  | enteredTwice
  -- Values
  | levelTooHigh
  | bothGiven (what : String)
  | dictType
  | levelOrParams
  | neitherLevelNorParams
  | samplesNotBytes
  | closed
  | closedFile
  | readerEnteredTwice
  | negativeRead
  | unknownFlushMode (shown : String)
  | flushMode
  | negativeLength
  | noRead
  | noWrite
  | firstNoRead
  | secondNoWrite
  | skipTooLarge
  | skipBeyond
  | writeSizePositive
  | emptyChain
  | linkNotBytes (i : Nat)
  | linkInvalid (i : Nat)
  | linkShort (i : Nat)
  | linkSizeMissing (i : Nat)
  | segmentsSize (n : Nat)
  | segmentOutside
  | noArguments
  | emptyBuffer
  | noElements
  | emptyElements
  | itemSizeUnknown (i : Nat)
  | sizesMismatch (expected got : Nat)
  | collectionSizesMismatch (expected got : Nat)
  | itemTooLarge (i : Nat)
  | invalidMode (shown : String)
  | illegalNewline (text : String)
  | rangeStep
  | notInList
  | benchmarkName
  | value (text : String)
  -- Indices
  | indexNegative
  | indexTooLarge (n : Nat)
  | indexOutOfRange
  -- Devices
  | device (text : String)
  | seekNegative
  | seekBackwards
  | seekFromEnd
  | notWritable
  | noFileno
  | unsupported
  | incapable (text : String)
  | notImplemented (text : String)
  | fileNotFound
  | fileExists
  | directory
  | notDirectory
  -- Without words
  | wrongType
  | overflow
  | memory
  | divisionByZero
  | assertion
  | noAttribute
  | undecodable
  | unencodable
  | unknownEncoding
  | noObject
  | missingModule
  -- Others
  | endless
  | plain (text : String)
  | deflate
  | badImport (text : String)
  deriving Inhabited

namespace Failure

def kind : Failure → FailureKind
  | codec .. | codecPair .. | partialFlush | contentSizeError | contentSizeUndetermined
  | contentSizeMissing | headerTooShort _ | frameIncomplete | contentShort _ | extraData _
  | acrossFramesUnsupported | linkIncomplete _ | itemSize .. | itemNoSpace _ | precomputeFailed
  | dictionaryFailed | objectReused | compressorFinished | objectFinished | chunkerBusy
  | chunkerFinished _ | chunkerPending _ | enteredTwice => .codec
  | wrongType => .type
  | indexNegative | indexTooLarge _ | indexOutOfRange => .index
  | device _ | seekNegative | seekBackwards | seekFromEnd | notWritable | noFileno => .device
  | unsupported | incapable _ => .unsupported
  | notImplemented _ => .notImplemented
  | fileNotFound => .fileNotFound
  | fileExists => .fileExists
  | directory => .directory
  | notDirectory => .notDirectory
  | overflow => .overflow
  | memory => .memory
  | divisionByZero => .divisionByZero
  | assertion => .assertion
  | noAttribute => .noAttribute
  | undecodable => .undecodable
  | unencodable => .unencodable
  | unknownEncoding => .unknownEncoding
  | noObject => .noObject
  | missingModule => .missingModule
  | endless | plain _ => .plain
  | deflate => .deflate
  | badImport _ => .badImport
  | _ => .value

/-- Quote a text that holds no backslash: double quotes where it holds a single one. -/
def quoted (s : String) : String :=
  if s.contains '\'' then "\"" ++ s ++ "\"" else "'" ++ s ++ "'"

def message : Failure → String
  | codec d f => d.text ++ f.message
  | codecPair d f => "(" ++ quoted (d.text ++ "%s") ++ ", " ++ quoted f.message ++ ")"
  | partialFlush => "unexpected partial frame flush"
  | contentSizeError => "error when determining content size"
  | contentSizeUndetermined => "error determining content size from frame header"
  | contentSizeMissing => "could not determine content size in frame header"
  | headerTooShort n => s!"not enough data for frame parameters; need {n} bytes"
  | frameIncomplete => "decompression error: did not decompress full frame"
  | contentShort n => s!"decompression error: decompressed 0 bytes; expected {n}"
  | extraData n => s!"compressed input contains {n} bytes of unused data, which is disallowed"
  | acrossFramesUnsupported => "ZstdDecompressor.read_across_frames=True is not yet implemented"
  | linkIncomplete i => s!"chunk {i} did not decompress full frame"
  | itemSize i got expected => s!"error decompressing item {i}: decompressed {got} bytes; expected {expected}"
  | itemNoSpace i => s!"error compressing item {i}: not enough space in output"
  | precomputeFailed => "unable to precompute dictionary"
  | dictionaryFailed => "could not create decompression dict"
  | objectReused => "cannot use a decompressobj multiple times"
  | compressorFinished => "cannot call compress() after compressor finished"
  | objectFinished => "compressor object already finished"
  | chunkerBusy => "cannot perform operation before consuming output from previous operation"
  | chunkerFinished what => s!"cannot call {what}() after compression finished"
  | chunkerPending what => s!"cannot call {what}() before consuming output from previous operation"
  | enteredTwice | readerEnteredTwice => "cannot __enter__ multiple times"
  | levelTooHigh => "level must be less than 22"
  | bothGiven what => "cannot define compression_params and " ++ what
  | dictType => "invalid dictionary load mode: %d; must use DICT_TYPE_* constants"
  | levelOrParams => "must only specify one of level or compression_params"
  | neitherLevelNorParams => "must specify one of level or compression_params"
  | samplesNotBytes => "samples must be bytes"
  | closed => "stream is closed"
  | closedFile => "I/O operation on closed file."
  | negativeRead => "cannot read negative amounts less than -1"
  | unknownFlushMode shown => "unknown flush_mode: " ++ shown
  | flushMode => "flush mode not recognized"
  | negativeLength => "negative array length"
  | noRead => "must pass an object with a read() method or conforms to buffer protocol"
  | noWrite => "must pass an object with a write() method"
  | firstNoRead => "first argument must have a read() method"
  | secondNoWrite => "second argument must have a write() method"
  | skipTooLarge => "skip_bytes must be smaller than read_size"
  | skipBeyond => "skip_bytes larger than first input chunk"
  | writeSizePositive => "write_size must be positive"
  | emptyChain => "empty input chain"
  | linkNotBytes i => s!"chunk {i} must be bytes"
  | linkInvalid i => s!"chunk {i} is not a valid zstd frame"
  | linkShort i => s!"chunk {i} is too small to contain a zstd frame"
  | linkSizeMissing i => s!"chunk {i} missing content size in frame"
  | segmentsSize n => s!"segments array size is not a multiple of {n}"
  | segmentOutside => "offset within segments array references memory outside buffer"
  | noArguments => "must pass at least 1 argument"
  | emptyBuffer => "ZstdBufferWithSegments cannot be empty"
  | noElements => "no source elements found"
  | emptyElements => "source elements are empty"
  | itemSizeUnknown i => s!"could not determine decompressed size of item {i}"
  | sizesMismatch expected got => s!"decompressed_sizes size mismatch; expected {expected}, got {got}"
  | collectionSizesMismatch expected got => s!"decompressed_sizes size mismatch; expected {expected}; got {got}"
  | itemTooLarge i => s!"item at offset {i} is too large for this platform"
  | invalidMode shown => "Invalid mode: " ++ shown
  | illegalNewline text => "illegal newline value: " ++ text
  | rangeStep => "range() arg 3 must not be zero"
  | notInList => "list.remove(x): x not in list"
  | benchmarkName => "benchmark function must begin with compress_ or decompress_"
  | value text => text
  | indexNegative => "offset must be non-negative"
  | indexTooLarge n => s!"offset must be less than {n}"
  | indexOutOfRange => "list index out of range"
  | device text => text
  | seekNegative => "cannot seek to negative position with SEEK_SET"
  | seekBackwards => "cannot seek zstd decompression stream backwards"
  | seekFromEnd => "zstd decompression streams cannot be seeked with SEEK_END"
  | notWritable => "stream is not writable"
  | noFileno => "fileno not available on underlying writer"
  | incapable text => text
  | notImplemented text => text
  | endless => "operation never ends"
  | plain text => text
  | badImport text => text
  | _ => ""

end Failure

end ZstCodec
