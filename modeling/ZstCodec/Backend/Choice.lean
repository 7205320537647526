import ZstCodec.Failure

/-! # Choosing a backend

The codec is reached through a *native* backend, which may be missing, or a *portable* one. A policy says which to take;
the default looks at the implementation of the host language. -/

namespace ZstCodec

inductive Backend where
  | native
  | portable
  deriving DecidableEq, Repr

namespace Backend

def name : Backend → String
  | native => "cext"
  | portable => "cffi"

def features : Backend → List String
  | native => ["buffer_types", "multi_compress_to_buffer", "multi_decompress_to_buffer"]
  | portable => []

def requireNative (hasNative : Bool) : Except Failure Backend :=
  if hasNative then .ok .native else .error .missingModule

def preferNative (hasNative : Bool) : Backend := if hasNative then .native else .portable

def choose (policy implementation : String) (hasNative : Bool) : Except Failure Backend :=
  match policy with
  | "default" => match implementation with
    | "CPython" => requireNative hasNative
    | "PyPy" => .ok .portable
    | _ => .ok (preferNative hasNative)
  | "cffi_fallback" => .ok (preferNative hasNative)
  | "rust" => .error .missingModule
  | "cext" => requireNative hasNative
  | "cffi" => .ok .portable
  | _ => .error (.badImport (s!"unknown module import policy: {policy}; "
      ++ "use default, cffi_fallback, cext, or cffi"))

end Backend

end ZstCodec
