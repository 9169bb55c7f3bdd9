import FusionBinutils.Bfd.Frame
import FusionBinutils.Bfd.Section
import FusionBinutils.Opcode.Decode
import FusionBinutils.Gas.RoundTrip
import FusionBinutils.Link.LoadStore
import FusionBinutils.Gas.Layout
import FusionBinutils.Gas.Evaluators
import FusionBinutils.Bfd.StrtabBytes
import FusionBinutils.Bfd.LinkResolve
import FusionBinutils.Bfd.LinkUndefs
import FusionBinutils.Bfd.ArchiveSearch
import FusionBinutils.Ld.WildWalk
import FusionBinutils.Bfd.MergeOffset
import FusionBinutils.Gas.LabelNames
import FusionBinutils.Bfd.LineLookup
import FusionBinutils.Gas.LineRoundTrip
import FusionBinutils.Bfd.IhexRoundTrip
import FusionBinutils.Bfd.SrecRoundTrip
import FusionBinutils.Bfd.ArmapRoundTrip
import FusionBinutils.Link.Macros
import FusionBinutils.Gas.Truncation
import FusionBinutils.Gas.RegisterOperand
import FusionBinutils.Bfd.HashRun
import FusionBinutils.Bfd.ObjAttrsRoundTrip
import FusionBinutils.Bfd.EhFrame
import FusionBinutils.Bfd.EhFrameMerge
import FusionBinutils.Bfd.ObjAttrsMerge
import FusionBinutils.Bfd.ObjAttrsStore
import FusionBinutils.Bfd.Properties
import FusionBinutils.Bfd.PropertiesNote
import FusionBinutils.Gas.DataFixup
import FusionBinutils.Gas.EhAdvance
import FusionBinutils.Gas.PcrelCheck
import FusionBinutils.Opcode.TableBounds
import FusionBinutils.Bfd.EhFrameCompact
import FusionBinutils.Bfd.EhFrameOffset
import FusionBinutils.Bfd.FuncLookup
import FusionBinutils.Bfd.LineAdvance
import FusionBinutils.Gas.BigLeb128
import FusionBinutils.Gas.ConstantData
import FusionBinutils.Gas.ExprValue
import FusionBinutils.Gas.ResolveConstant
import FusionBinutils.Gas.Traps
import FusionBinutils.Bfd.LineReads
import FusionBinutils.Bfd.LineSafety
import FusionBinutils.Bfd.ArmapSlurp
import FusionBinutils.Bfd.IhexPasses
import FusionBinutils.Bfd.NameTable
import FusionBinutils.Bfd.NameTablePasses
import FusionBinutils.Bfd.RelativePath
import FusionBinutils.Bfd.SrecPasses
import FusionBinutils.Bfd.Stabs
import FusionBinutils.Gas.Cond
import FusionBinutils.Gas.CondLevels
import FusionBinutils.Gas.CondRun
import FusionBinutils.Gas.RelaxSegment
import FusionBinutils.Libiberty.Argv
import FusionBinutils.Gas.Scrub
import FusionBinutils.Gas.ScrubLines
import FusionBinutils.Bfd.HexContents
import FusionBinutils.Bfd.LinkLoops
import FusionBinutils.Bfd.MergeReads
import FusionBinutils.Bfd.Overflow
import FusionBinutils.Bfd.SrecRecord
import FusionBinutils.Bfd.StrtabRestore
import FusionBinutils.Bfd.StrtabShared
import FusionBinutils.Bfd.Tekhex
import FusionBinutils.Ld.CompareSection
import FusionBinutils.Ld.WildFast
import FusionBinutils.Ld.WildOrder
import FusionBinutils.Bfd.Elfcode
import FusionBinutils.Bfd.SafeLeb128
import FusionBinutils.Bfd.SegmentMap
import FusionBinutils.Bfd.SegmentSections
import FusionBinutils.Gas.MacroBody
import FusionBinutils.Gas.MacroBounds
import FusionBinutils.Gas.MacroSafety
import FusionBinutils.Gas.Nest
import FusionBinutils.Gas.NestBody
import FusionBinutils.Gas.RelaxTable
import FusionBinutils.Ld.CheckAddresses
import FusionBinutils.Ld.DataSegment
import FusionBinutils.Ld.FoldArithmetic
import FusionBinutils.Ld.RegionCheck
import FusionBinutils.Opcode.SplitImmediate
import FusionBinutils.Bfd.EhFrameMerged
import FusionBinutils.Bfd.AsNeeded
import FusionBinutils.Ld.Fnmatch
import FusionBinutils.Libiberty.Chunks
import FusionBinutils.Libiberty.Hashtab
