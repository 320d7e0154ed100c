import CToys.Lib.Outcome
import CToys.Lib.ByteMemory
import CToys.Lib.DoublyLinked
import CToys.Lib.Tiling
import CToys.Lib.Runs
import CToys.Lib.Process
import CToys.Lib.Moves
import CToys.Lib.Contents
import CToys.Lib.Pool
import CToys.Lib.Posix
import CToys.Lib.Lines
import CToys.Lib.FileTree
import CToys.Lib.Glob
import CToys.Lib.MachineInt
import CToys.Lib.Doubling
import CToys.Lib.Pieces
import CToys.Lib.Numeral
import CToys.Lib.Scan
import CToys.Lib.Smallest
import CToys.Stdio.Copy
import CToys.Stdio.Getline
import CToys.Stdio.GetlineCall
import CToys.Stdio.GetlineSplit
import CToys.Stdio.GetlineSize
import CToys.Stdio.GetlineMemory
import CToys.Fs.Mydu
import CToys.Fs.Descent
import CToys.Fs.Usage
import CToys.Fs.Calls
import CToys.Fs.StaysInside
import CToys.Fs.HardLinks
import CToys.Sysio.Mylined
import CToys.Sysio.Search
import CToys.Sysio.Shift
import CToys.Sysio.DeleteLine
import CToys.Sysio.InPlace
import CToys.Sysio.NoLine
import CToys.Sysio.MycpSysio
import CToys.Sysio.MycpWrites
import CToys.Cp.CpHoles
import CToys.Cp.CpTrace
import CToys.Cp.CpFailures
import CToys.Cp.CpTlpi
import CToys.Malloc.Memlib
import CToys.Malloc.Macros
import CToys.Malloc.Blocks
import CToys.Malloc.Grow
import CToys.Malloc.Merge
import CToys.Malloc.MergeTags
import CToys.Malloc.Cut
import CToys.Malloc.Layout
import CToys.Malloc.Client
import CToys.Malloc.Frees
import CToys.Malloc.Segregated.Program
import CToys.Malloc.Segregated.FreeLists
import CToys.Malloc.Segregated.InsertDelete
import CToys.Malloc.Segregated.Bins
import CToys.Malloc.Segregated.Fit
import CToys.Malloc.Segregated.Coalesce
import CToys.Malloc.Segregated.Place
import CToys.Malloc.Segregated.Heap
import CToys.Malloc.Segregated.Client
import CToys.Malloc.Segregated.Contract
import CToys.Malloc.Segregated.Frees
import CToys.Malloc.Segregated.Undo
import CToys.Malloc.Segregated.BestFit
import CToys.Malloc.Segregated.Placement
import CToys.Malloc.Segregated.Reuse
import CToys.Malloc.Segregated.Realloc
import CToys.Malloc.Segregated.ReallocEnd
import CToys.Malloc.Segregated.Relocate
import CToys.Malloc.Segregated.ReallocSafety
import CToys.Malloc.Segregated.Wrap
import CToys.Malloc.Implicit.Program
import CToys.Malloc.Implicit.Coalesce
import CToys.Malloc.Implicit.Fit
import CToys.Malloc.Implicit.Heap
import CToys.Malloc.Implicit.Realloc
import CToys.Malloc.Implicit.Client
import CToys.Malloc.Implicit.Contract
import CToys.Malloc.Implicit.Frees
import CToys.Malloc.Implicit.NextFit
import CToys.Malloc.Implicit.Refusal
import CToys.Malloc.Implicit.Wrap
import CToys.Malloc.Breaks
import CToys.Malloc.Exchange
import CToys.Malloc.Segregated.Resize
import CToys.Malloc.Driver.Program
import CToys.Malloc.Driver.Interface
import CToys.Malloc.Driver.Trace
import CToys.Malloc.Driver.Checks
import CToys.Malloc.Driver.Sound
import CToys.Malloc.Driver.Replay
import CToys.Malloc.Driver.Tracked
import CToys.Malloc.Driver.Verdict
import CToys.Malloc.Driver.Measure
import CToys.Malloc.Driver.ReadTrace
import CToys.Malloc.Driver.Fcyc
import CToys.Malloc.Driver.Main
import CToys.Malloc.Driver.Clients
