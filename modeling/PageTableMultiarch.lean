import PageTableMultiarch.Basic
import PageTableMultiarch.Lib.AllocTrace
import PageTableMultiarch.Lib.Cyclic
import PageTableMultiarch.Lib.LazyCache
import PageTableMultiarch.Lib.Mask
import PageTableMultiarch.Lib.PageMap
import PageTableMultiarch.Lib.PageWalk
import PageTableMultiarch.Lib.Radix
import PageTableMultiarch.Lib.Traversal
import PageTableMultiarch.Entry.Lawful
import PageTableMultiarch.Entry.X64
import PageTableMultiarch.Entry.A64
import PageTableMultiarch.Entry.Rv64
import PageTableMultiarch.Entry.La64
import PageTableMultiarch.Entry.Arch
import PageTableMultiarch.Table64.Code
import PageTableMultiarch.Table64.Refinement
import PageTableMultiarch.Table64.Accounting
import PageTableMultiarch.Table64.Remap
import PageTableMultiarch.Table64.ProtectRegion
import PageTableMultiarch.Table64.MapRegion
import PageTableMultiarch.Table64.UnmapRegion
import PageTableMultiarch.Table64.UnmapExact
import PageTableMultiarch.Table64.Leftover
import PageTableMultiarch.Table64.FullWalk
import PageTableMultiarch.Table64.WalkLimit
import PageTableMultiarch.Table64.WalkAddress
import PageTableMultiarch.Table64.HugeLeaves
import PageTableMultiarch.Table64.RegionFrame
import PageTableMultiarch.Table64.PageTree
import PageTableMultiarch.Table64.Independence
import PageTableMultiarch.Entry.A32
import PageTableMultiarch.Entry.A32Hardware
import PageTableMultiarch.Table32.Code
import PageTableMultiarch.Table64.Lending
import PageTableMultiarch.Table64.CopyExact
import PageTableMultiarch.Table64.Flush
import PageTableMultiarch.Table64.Sharing
import PageTableMultiarch.Table64.Tlb
import PageTableMultiarch.Table64.Policy
import PageTableMultiarch.Table64.Mmu
import PageTableMultiarch.Table64.MapOutcome
import PageTableMultiarch.Entry.Fields
import PageTableMultiarch.Entry.Hardware
import PageTableMultiarch.Entry.Reencode
import PageTableMultiarch.Table64.ProtectSame
import PageTableMultiarch.Table64.RemapExact
import PageTableMultiarch.RegionArith
import PageTableMultiarch.Table32.Spec
import PageTableMultiarch.Table32.Layout
import PageTableMultiarch.Table32.Step
import PageTableMultiarch.Table32.Run
import PageTableMultiarch.Table32.ReadBack
import PageTableMultiarch.Table32.Accounting
import PageTableMultiarch.Table32.PageFrame
import PageTableMultiarch.Table32.Protect
import PageTableMultiarch.Table32.Walk
import PageTableMultiarch.Table32.WalkReal
import PageTableMultiarch.Table32.Leaf
import PageTableMultiarch.Table32.Space
import PageTableMultiarch.Table32.Refinement
import PageTableMultiarch.Table32.Mmu
import PageTableMultiarch.Table32.Region
import PageTableMultiarch.Table32.System
import PageTableMultiarch.Table32.SystemStep
import PageTableMultiarch.Table32.SystemOps
import PageTableMultiarch.Table32.SystemCopy
import PageTableMultiarch.Table32.SystemRun
import PageTableMultiarch.Table32.Flush
import PageTableMultiarch.Table32.Tlb
import PageTableMultiarch.Table64.WalkCache
