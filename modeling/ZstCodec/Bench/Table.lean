import ZstCodec.Bench.Work

/-! # The benchmarks

A benchmark has a name, a mode, a title and what it needs. They stand in the order in which they are run. -/

namespace ZstCodec.Bench

open Session

inductive Mode where
  | discrete
  | stream
  | contentDict
  deriving DecidableEq, Repr

def Mode.name : Mode → String
  | discrete => "discrete"
  | stream => "stream"
  | contentDict => "content-dict"

inductive Direction where
  | compress
  | decompress
  deriving DecidableEq, Repr

def Direction.name : Direction → String
  | compress => "compress"
  | decompress => "decompress"

structure Benchmark where
  name : String
  mode : Mode
  title : String
  work : Work
  needsSize : Bool := false
  simple : Bool := false
  deflates : Bool := false
  takesThreads : Bool := false
  takesBuffer : Bool := false
  takesSizes : Bool := false
  portable : Bool := true

namespace Benchmark

def attributes (b : Benchmark) : List (String × Value) := [
  ("mode", .text b.mode.name), ("title", .text b.title), ("require_content_size", .bool b.needsSize),
  ("simple", .bool b.simple), ("zlib", .bool b.deflates), ("threads_arg", .bool b.takesThreads),
  ("chunks_as_buffer", .bool b.takesBuffer), ("decompressed_sizes_arg", .bool b.takesSizes), ("cffi", .bool b.portable)]

def run (b : Benchmark) (w : World) (j : Job) : Except Failure Unit := (Id.run ((b.work j).run.run w)).1

variable (name title : String) (work : Work)

def discrete : Benchmark := { name, mode := .discrete, title, work }

def stream : Benchmark := { name, mode := .stream, title, work }

def contentDict : Benchmark := { name, mode := .contentDict, title, work }

end Benchmark

open Benchmark in
def benchmarks : List Benchmark := [
  discrete "compress_one_use" "compress() single use zctx" compressOneUse,
  { discrete "compress_reuse" "compress() reuse zctx" compressReuse with simple := true },
  { discrete "compress_multi_compress_to_buffer_buffer" "multi_compress_to_buffer() w/ buffer input" (compressMany true) with
    simple := true, takesThreads := true, takesBuffer := true, portable := false },
  { discrete "compress_multi_compress_to_buffer_list" "multi_compress_to_buffer() w/ list input" (compressMany false) with
    takesThreads := true, portable := false },
  discrete "compress_stream_reader" "stream_reader()" compressReader,
  discrete "compress_stream_writer" "stream_writer()" (compressWriter false),
  discrete "compress_stream_writer_size" "stream_writer() w/ input size" (compressWriter true),
  discrete "compress_read_to_iter" "read_to_iter()" (compressIterator false),
  discrete "compress_read_to_iter_size" "read_to_iter() w/ input size" (compressIterator true),
  discrete "compress_compressobj" "compressobj()" (compressObject false),
  discrete "compress_compressobj_size" "compressobj() w/ input size" (compressObject true),
  discrete "compress_chunker_discrete" "chunker()" (compressChunker false),
  discrete "compress_chunker_discrete_size" "chunker() w/ input size" (compressChunker true),
  { discrete "compress_zlib_discrete" "compress()" deflateEach with simple := true, deflates := true },
  { stream "compress_zlib_compressobj" "compressobj()" deflateStream with simple := true, deflates := true },
  stream "compress_stream_stream_writer" "stream_writer()" compressStreamWriter,
  { stream "compress_stream_compressobj" "compressobj()" compressStreamObject with simple := true },
  { stream "compress_stream_chunker" "chunker()" compressStreamChunker with simple := true },
  { contentDict "compress_content_dict_compress" "compress()" compressChainedAtOnce with simple := true },
  contentDict "compress_content_dict_stream_writer" "stream_writer()" (compressChainedWriter false),
  contentDict "compress_content_dict_stream_writer_size" "stream_writer() w/ input size" (compressChainedWriter true),
  contentDict "compress_content_dict_read_to_iter" "read_to_iter()" (compressChainedIterator false),
  contentDict "compress_content_dict_read_to_iter_size" "read_to_iter() w/ input size" (compressChainedIterator true),
  contentDict "compress_content_dict_compressobj" "compressobj()" (compressChainedObject false),
  contentDict "compress_content_dict_compressobj_size" "compressobj() w/ input size" (compressChainedObject true),
  { discrete "decompress_one_use" "decompress() single use zctx" decompressOneUse with needsSize := true },
  { discrete "decompress_reuse" "decompress() reuse zctx" decompressReuse with needsSize := true, simple := true },
  { discrete "decompress_zlib_decompress" "decompress()" inflateEach with simple := true, deflates := true },
  { discrete "decompress_multi_decompress_to_buffer_buffer_and_size" "multi_decompress_to_buffer() w/ buffer input + sizes" (decompressMany true true) with
    simple := true, takesThreads := true, takesBuffer := true, takesSizes := true, portable := false },
  { discrete "decompress_multi_decompress_to_buffer_buffer" "multi_decompress_to_buffer() w/ buffer input" (decompressMany true false) with
    needsSize := true, takesThreads := true, takesBuffer := true, portable := false },
  { discrete "decompress_multi_decompress_to_buffer_list_and_sizes" "multi_decompress_to_buffer() w/ list of bytes input + sizes" (decompressMany false true) with
    takesThreads := true, takesSizes := true, portable := false },
  { discrete "decompress_multi_decompress_to_buffer_list" "multi_decompress_to_buffer() w/ list of bytes input" (decompressMany false false) with
    needsSize := true, takesThreads := true, portable := false },
  discrete "decompress_stream_reader" "stream_reader()" decompressReader,
  discrete "decompress_stream_writer" "stream_writer()" decompressWriter,
  discrete "decompress_read_to_iter" "read_to_iter()" decompressIterator,
  discrete "decompress_decompressobj" "decompressobj()" decompressObject,
  { stream "decompress_zlib_stream" "decompressobj()" inflateStream with simple := true, deflates := true },
  stream "decompress_stream_stream_writer" "stream_writer()" decompressStreamWriter,
  { stream "decompress_stream_decompressobj" "decompressobj()" decompressStreamObject with simple := true },
  { contentDict "decompress_content_dict_decompress" "decompress()" decompressChainedAtOnce with needsSize := true },
  contentDict "decompress_content_dict_stream_writer" "stream_writer()" decompressChainedWriter,
  contentDict "decompress_content_dict_read_to_iter" "read_to_iter()" decompressChainedIterator,
  contentDict "decompress_content_dict_decompressobj" "decompressobj()" decompressChainedObject,
  { contentDict "decompress_content_dict_chain_api" "decompress_content_dict_chain()" decompressChain with
    simple := true }]

def select (table : List Benchmark) (backend : Backend) (mode : Mode) (direction : Direction) (deflates : Bool) :
    List Benchmark :=
  table.filter fun b =>
    b.name.startsWith (direction.name ++ "_") && b.mode = mode && b.deflates = deflates
      && (b.portable || backend = .native)

end ZstCodec.Bench
