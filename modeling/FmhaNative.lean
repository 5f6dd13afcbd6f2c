import FmhaNative.RowMax
import FmhaNative.FillBounds
import FmhaNative.Lockstep
import FmhaNative.Bf16Bits
import FmhaNative.BlockRaces
import FmhaNative.BshdSmoke
import FmhaNative.Noninterference
import FmhaNative.OracleChain
import FmhaNative.PackedBatch
import FmhaNative.SoftmaxBounds
import FmhaNative.GroupedHeads
import FmhaNative.BenchRun
import FmhaNative.TileGemms
import FmhaNative.TileWork
import FmhaNative.ReadBounds
import FmhaNative.RefSuite
import FmhaNative.Truncation
import FmhaNative.VerifyBounds
