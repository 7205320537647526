import ZstCodec.Bench.Functions
import ZstCodec.Hash.Crc32
import ZstCodec.Main
import ZstCodec.Packaging.Declarations
import ZstCodec.Packaging.Setup
import ZstCodec.Proofs.Compress.OneBlock
import ZstCodec.Proofs.Segments.Packing
import ZstCodec.Proofs.Session.Accounts
import ZstCodec.Proofs.Session.Buffers
import ZstCodec.Proofs.Session.Chain
import ZstCodec.Proofs.Session.Heading
import ZstCodec.Proofs.Session.Levels
