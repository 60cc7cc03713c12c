import DShowServer.Pool.Lock
import DShowServer.Pool.Leak
import DShowServer.Ring.Interlace
import DShowServer.Ring.PageLock
import DShowServer.Ring.Reuse
import DShowServer.Protocol.Arithmetic
import DShowServer.Protocol.InputArea
import DShowServer.Protocol.Exchange
import DShowServer.Protocol.Bounds
import DShowServer.Decoder.Reload
import DShowServer.Decoder.Packet
import DShowServer.Decoder.SequenceHeader
import DShowServer.Decoder.FormatBounds
import DShowServer.Decoder.OutputFormat
import DShowServer.Options.HandOver
import DShowServer.Registry.Persist
import DShowServer.Alloc.Conserve
import DShowServer.Alloc.Buffer
import DShowServer.Registry.Map
import DShowServer.Registry.Handles
import DShowServer.Registry.Malformed
import DShowServer.Transport.Timeout
import DShowServer.Transport.Equivalence
import DShowServer.Registry.Remove
import DShowServer.Registry.ParseKey
import DShowServer.Registry.Exhausted
import DShowServer.Picture.Yuy2
import DShowServer.Packetizer.Cut
import DShowServer.Packetizer.SequenceParameterSet
import DShowServer.Packetizer.Lookahead
import DShowServer.Protocol.Checksum
import DShowServer.Options.Guid
import DShowServer.Options.Defaults
import DShowServer.Decoder.OutputPin
import DShowServer.Alloc.Ring
import DShowServer.Registry.HandleList
import DShowServer.Packetizer.Emulation
import DShowServer.Packetizer.BitReader
import DShowServer.Loader.Mapping
import DShowServer.Loader.Import
import DShowServer.Loader.ImageLinks
import DShowServer.Sync.Event
import DShowServer.Sync.CriticalSection
import DShowServer.Loader.Heap
import DShowServer.Loader.ModuleUse
