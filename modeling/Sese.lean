import Sese.Net.Http.HPackRoundTrip
import Sese.Net.Http.TableHistory
import Sese.Service.Http.StreamTable
import Sese.Service.Http.ReceiveBuffer
import Sese.Service.Http.AsyncOps
import Sese.Service.Http.ReceiveWindow
import Sese.Service.Http.SendWindow
import Sese.Service.Http.RequestHeaders
import Sese.Service.Http.HeaderBlocks
import Sese.Service.Http.Liveness
import Sese.Service.Http.FrameSlices
import Sese.Service.Http.PeerWindows
import Sese.Service.Http.TableSizes
import Sese.Service.Http.WriteLoop
import Sese.Service.Http.MountPoints
import Sese.Service.Http.IdleStreams
import Sese.Service.Http.Segmentation
import Sese.Foundation.Mailboxes
import Sese.Foundation.Overwrite
import Sese.System.IPC
import Sese.System.Channels
import Sese.Foundation.Orbit
import Sese.Net.Dns.DnsPackage
import Sese.Net.Dns.Decoding
import Sese.Net.Dns.Encoder
import Sese.Net.Dns.WireForm
import Sese.Net.Dns.Labels
import Sese.Net.Dns.Compression
import Sese.Net.Dns.Layout
import Sese.Net.Dns.Realign
import Sese.Net.Dns.RoundTrip
import Sese.Net.Dns.Capacity
import Sese.Service.Dns.DnsService
import Sese.Foundation.Calendar
import Sese.Text.GreenwichDates
import Sese.Net.Http.TextParsing
import Sese.Net.Http.ResponseRoundTrip
import Sese.Io.InputBufferWrapper
import Sese.Net.Http.SetCookie
import Sese.Config.Csv
import Sese.Config.Ini
import Sese.Foundation.Queues
import Sese.Io.AbstractByteBuffer
import Sese.Io.ByteQueue
import Sese.Io.ByteAccounting
import Sese.Config.Json
import Sese.Config.JsonDocument
import Sese.Config.JsonRoundTrip
import Sese.Config.JsonFrontEnds
import Sese.Config.Xml
import Sese.Config.XmlRoundTrip
import Sese.Config.Yaml
import Sese.Config.YamlTermination
import Sese.Config.YamlLines
import Sese.Config.YamlRoundTrip
import Sese.Container.Bimap
import Sese.Container.RingQueue
import Sese.Container.BufferedQueue
import Sese.Foundation.Blocks
import Sese.Io.BufferedStream
import Sese.Log.AsyncLogger
import Sese.Log.AsyncLoggerRuns
import Sese.Text.SString
import Sese.Text.SStringChars
import Sese.Util.IOBufQueue
import Sese.Util.TimeWheel
import Sese.Util.TimeWheelChecks
import Sese.Service.Http.BodyFrames
import Sese.Service.Http.HeaderFragments
import Sese.Net.Http.HPackGrammar
import Sese.Net.Http.EncoderReferences
import Sese.Service.Http.DownloadFrames
import Sese.Util.SHA1Util
import Sese.Util.SHA256Util
import Sese.Foundation.Sines
import Sese.Foundation.Md5
import Sese.Util.MD5Util
import Sese.Net.Http.Ranges
import Sese.Net.Http.UrlHelper
import Sese.Net.Http.PercentConverter
import Sese.Net.Http.CookieTexts
import Sese.Net.Http.HttpClient
import Sese.Service.Http.RangeWrites
import Sese.Net.Addresses
import Sese.Net.Dns.Resolver
import Sese.Net.Dns.Repeats
import Sese.Config.ValueToString
import Sese.Config.ValueAgreement
import Sese.Config.YamlBlankLines
import Sese.Foundation.Nesting
import Sese.Config.JsonBrackets
import Sese.Config.RepeatedKeys
import Sese.Config.XmlComments
import Sese.Config.XmlCuts
import Sese.Util.Version
import Sese.Foundation.IntTypes
import Sese.Text.FormatOption
import Sese.Text.Number
import Sese.Foundation.Occurrences
import Sese.Text.SStringView
import Sese.Text.SStringOperations
import Sese.Text.AbstractStringBuffer
import Sese.Text.BufferSplit
import Sese.Foundation.Alignments
import Sese.Text.Algorithm
import Sese.Text.BoyerMoore
import Sese.Text.SearchPatterns
import Sese.Foundation.Borders
import Sese.Text.KnuthMorrisPratt
import Sese.Text.SStringSplit
import Sese.Text.BufferEdits
import Sese.Text.BufferRuns
import Sese.Foundation.Escapes
import Sese.Text.Format
import Sese.Text.FormatScan
import Sese.Text.FormatPatterns
import Sese.Res.ResourceStream
import Sese.Text.DateTimeParser
import Sese.Util.Base64Converter
import Sese.Util.Base62
import Sese.Io.BufferedOutputStream
import Sese.Util.Decompressor
import Sese.Io.BaseStreamReader
import Sese.Container.LinkedStack
import Sese.Container.LinkedQueue
import Sese.Thread.ThreadPool
import Sese.Util.ObjectPool
import Sese.Service.Dns.NameServers
import Sese.Service.Http.ResponseBodies
