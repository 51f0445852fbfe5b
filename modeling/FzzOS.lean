import FzzOS.RadixTree
import FzzOS.Bitmap
import FzzOS.FirstFit
import FzzOS.PmmAlloc
import FzzOS.PmmPages
import FzzOS.FreeOrder
import FzzOS.MemoryMap
import FzzOS.PmmInit
import FzzOS.BitmapStorage
import FzzOS.BootBitmap
import FzzOS.PmmDrift
import FzzOS.BitmapPlacement
import FzzOS.AddressSwitch
import FzzOS.KernelView
import FzzOS.LargePages
import FzzOS.Mappers
import FzzOS.Exhaustion
import FzzOS.HeapWindow
import FzzOS.SoftwareWalk
import FzzOS.Ownership
import FzzOS.Permissions
import FzzOS.TableDump
import FzzOS.PointerTrace
import FzzOS.StoreTargets
import FzzOS.Syscalls
import FzzOS.InterruptFrame
import FzzOS.InterruptLines
import FzzOS.ConsoleBounds
import FzzOS.ConsoleText
import FzzOS.ConsoleScroll
import FzzOS.PixelLayout
import FzzOS.ConsoleExec
import FzzOS.ConsoleInput
import FzzOS.KeyboardBoot
import FzzOS.SyscallWrite
import FzzOS.SyscallSetup
import FzzOS.BootTags
import FzzOS.Serial
import FzzOS.HeapLock
import FzzOS.ShiftKeys
import FzzOS.ExceptionTables
import FzzOS.BitmapLaws
import FzzOS.Memcmp
import FzzOS.Oct2bin
import FzzOS.HeapObjects
import FzzOS.KernelHeap
import FzzOS.PrintfSinks
import FzzOS.SerialPrintf
import FzzOS.PrintfNumbers
import FzzOS.PrintfReturns
