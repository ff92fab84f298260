import Eterna.Memory.Virtual
import Eterna.Memory.PageMap
import Eterna.Memory.MapLevels
import Eterna.Memory.TableSupply
import Eterna.Memory.Rights
import Eterna.Memory.InitVirtual
import Eterna.Memory.Clone
import Eterna.Memory.InitPhysical
import Eterna.Memory.PageRuns
import Eterna.Library.ByteMemory
import Eterna.Library.SegmentChain
import Eterna.Memory.Heap
import Eterna.Memory.HeapChain
import Eterna.Memory.HeapSteps
import Eterna.Memory.HeapRuns
import Eterna.Library.Fuel
import Eterna.Memory.HeapDebug
import Eterna.Memory.Requests
import Eterna.Memory.Prekernel
import Eterna.Memory.InitBitmaps
import Eterna.Memory.InitReserved
import Eterna.Memory.PageSupply
import Eterna.Memory.HeapGrowth
import Eterna.Memory.HeapCoalesce
import Eterna.Memory.HeapPages
import Eterna.Interrupts
import Eterna.Library.LinkedNodes
import Eterna.LinkedList
import Eterna.Memory.HeapAlign
import Eterna.Memory.FreeCount
import Eterna.Memory.NullPage
import Eterna.Memory.IdentityMap
import Eterna.Library.Outcome
import Eterna.Strings.Store
import Eterna.Strings.Basic
import Eterna.Strings.Ownership
import Eterna.Strings.Contents
import Eterna.Library.Traced
import Eterna.Strings.Chop
import Eterna.Library.CStrings
import Eterna.Serial.Cstr
import Eterna.Serial.Uart
import Eterna.Serial.Debug
import Eterna.Serial.StringArgument
import Eterna.Memory.HeapBelow
import Eterna.Strings.HeapStore
import Eterna.Memory.HeapFit
import Eterna.Memory.HeapFree
import Eterna.Memory.LeafEntry
import Eterna.Memory.MapFailure
import Eterna.Memory.HeapChart
import Eterna.Library.Loops
import Eterna.Renderer.Drawing
import Eterna.Renderer.Bitmaps
import Eterna.Library.Numerals
import Eterna.Serial.Numerals
import Eterna.Serial.NumeralBuffers
import Eterna.Library.Binary64
import Eterna.Serial.Doubles
import Eterna.Serial.ColorCodes
import Eterna.Serial.Port
import Eterna.Serial.BufferCodes
import Eterna.Library.LongestMatch
import Eterna.Serial.Grammar
import Eterna.Serial.FormatText
import Eterna.Serial.Lookahead
import Eterna.Serial.Formatting
import Eterna.Memory.HeapReport
import Eterna.Renderer.Pixels
import Eterna.Renderer.Surfaces
import Eterna.Renderer.Text
import Eterna.Boot.Rsdp
import Eterna.Gates
import Eterna.Library.SplitWords
import Eterna.Gdt
import Eterna.Library.MaximalRuns
import Eterna.Memory.HeapSummed
import Eterna.Library.Machines
import Eterna.BitmapMemory
import Eterna.Library.AccessLog
import Eterna.Memory.Memset
import Eterna.Boot.LoadKernel
import Eterna.Memory.CloneFailure
import Eterna.Library.TableForest
import Eterna.Memory.CloneTables
import Eterna.Memory.AddressSpaces
import Eterna.Pic
import Eterna.Idt
import Eterna.InterruptDelivery
import Eterna.ListOwnership
import Eterna.Memory.HeapAbove
import Eterna.Renderer.Construction
import Eterna.Serial.Chip
import Eterna.Serial.Traffic
import Eterna.Memory.Startup
import Eterna.Library.TextFormats
import Eterna.Renderer.Canvas
import Eterna.Panic.Basic
import Eterna.Panic.Report
import Eterna.Panic.Screen
