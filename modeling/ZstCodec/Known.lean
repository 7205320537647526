/-! # What a reader knows of an earlier code

A code sent in one block may be used again in a later one, without sending it a second time. -/

namespace ZstCodec

/-- What the reader knows of an earlier code. -/
inductive Known where
  | nothing
  | unchecked
  | complete
  deriving DecidableEq, Repr

end ZstCodec
