import ZstCodec.CommandLine.Arguments

/-! # Options of the benchmark program -/

namespace ZstCodec.Bench

open CommandLine

structure Options where
  discrete : Bool := false
  stream : Bool := false
  contentDict : Bool := false
  discreteDict : Bool := false
  noCompression : Bool := false
  noDecompression : Bool := false
  onlySimple : Bool := false
  deflate : Bool := false
  level : Int := 3
  noWriteSize : Bool := false
  writeChecksum : Bool := false
  dictSize : Int := 131072
  longDistance : Bool := false
  ldmHashLog : Option Int := none
  compressThreads : Option Int := none
  batchThreads : Int := 0
  coverK : Int := 0
  coverD : Int := 0
  deflateLevel : Int := 6
  limitCount : Option Int := none
  sampleLimit : Option Int := none
  chunkEncoding : String := "raw"
  splitSize : Option Int := none
  paths : List String := []
  deriving DecidableEq, Repr

namespace Options

def flag (name : String) : OptionSpec := { names := [name], takes := .nothing }

def number (name : String) : OptionSpec := { names := [name], takes := .number }

def grammar : List OptionSpec := [
  { names := ["-h", "--help"], takes := .help },
  flag "--discrete", flag "--stream", flag "--content-dict", flag "--discrete-dict",
  flag "--no-compression", flag "--no-decompression", flag "--only-simple", flag "--zlib",
  { names := ["-l", "--level"], takes := .number },
  flag "--no-write-size", flag "--write-checksum", number "--dict-size", flag "--enable-ldm", number "--ldm-hash-log",
  number "--compress-threads", number "--batch-threads", number "--cover-k", number "--cover-d", number "--zlib-level",
  number "--limit-count", number "--dict-sample-limit",
  { names := ["--chunk-encoding"], takes := .oneOf ["raw", "zlib"] },
  number "--split-input-size"]

/-- Read the options of the program. If no mode is given, every chunk is compressed by itself. -/
def parse (args : List String) : Except Stop Options := do
  let p ← CommandLine.parse grammar args
  let has := p.has
  let stream := has "--stream"
  let contentDict := has "--content-dict"
  let discreteDict := has "--discrete-dict"
  return {
    discrete := has "--discrete" || ! (stream || contentDict || discreteDict)
    stream, contentDict, discreteDict
    noCompression := has "--no-compression"
    noDecompression := has "--no-decompression"
    onlySimple := has "--only-simple"
    deflate := has "--zlib"
    level := (p.number? "--level").getD 3
    noWriteSize := has "--no-write-size"
    writeChecksum := has "--write-checksum"
    dictSize := (p.number? "--dict-size").getD 131072
    longDistance := has "--enable-ldm"
    ldmHashLog := p.number? "--ldm-hash-log"
    compressThreads := p.number? "--compress-threads"
    batchThreads := (p.number? "--batch-threads").getD 0
    coverK := (p.number? "--cover-k").getD 0
    coverD := (p.number? "--cover-d").getD 0
    deflateLevel := (p.number? "--zlib-level").getD 6
    limitCount := p.number? "--limit-count"
    sampleLimit := p.number? "--dict-sample-limit"
    chunkEncoding := (p.text? "--chunk-encoding").getD "raw"
    splitSize := p.number? "--split-input-size"
    paths := p.words.getD [] }

end Options

end ZstCodec.Bench
